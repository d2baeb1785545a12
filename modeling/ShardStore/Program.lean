import ShardStore.Process
import ShardStore.Snapshot
import ShardStore.Stats

/-!
# Programs on a store

The public interface of a store, as a language. An `Operation` is a call without a callback. A
`Program` is a caller's code: operations, updates and visits whose callbacks are programs again, to
any depth, and attempts that catch a fault. `Program.process` says which actions a program
consists of, and `Program.run` runs it.

A program of mode `Threading.single` keeps to the thread that runs it. One of mode
`Threading.spawning` may have new threads run programs and wait for them, also from inside a
callback. A new thread runs no callback yet, so it is not refused where its starter would be: it
shares a shared lock with its starter and waits for an exclusive one.

## Shape of a keyed operation

Every keyed operation first asks the router once, then requests the lock of that one shard, and
only then looks at the table. Look-ups, insertions and removals count themselves after the lock
was given back; insertions that depend on what is there count themselves before.

## Shape of a whole-map operation

Whole-map operations go from shard to shard and hold one lock at a time. Snapshots and the keys
are read by workers, one for each shard, for which the thread that asks waits. It checks the marks
of all shards before any worker starts, since a worker looks for marks of its own only and has none.
That the system starts every worker is assumed: a call for which it does not ends with
`Error.spawn`, and nothing here is about such a call. What the workers do step by step and in any
order is in `Concurrent/Traversal` and `Concurrent/KeyCollection`; here they come one after another.
-/

namespace ShardStore

/-- The calls without a callback, with the type of their answers. -/
inductive Operation (V : Type) : Type → Type where
  /-- Inserts or overwrites. -/
  | set (key : String) (value : V) : Operation V Unit
  /-- Inserts unless the key is there; says whether it inserted. -/
  | setIfAbsent (key : String) (value : V) : Operation V Bool
  /-- Looks a key up. -/
  | get (key : String) : Operation V (Option V)
  /-- Whether a key is there. -/
  | has (key : String) : Operation V Bool
  /-- Removes a key if it is there. -/
  | remove (key : String) : Operation V Unit
  /-- Removes a key and hands out its value. -/
  | pop (key : String) : Operation V (Option V)
  /-- The shard that a key is routed to. -/
  | shardIndex (key : String) : Operation V Nat
  /-- The number of shards. -/
  | shardCount : Operation V Nat
  /-- The number of entries. -/
  | count : Operation V Nat
  /-- The keys, once for each shard that holds them; its workers all start. -/
  | keys : Operation V (List String)
  /-- All entries as one table; of a key in several shards the last one's value. -/
  | items : Operation V (Table V)
  /-- Sizes and tallies. -/
  | stats : Operation V Stats
  /-- Captures every shard; its workers all start. -/
  | snapshot : Operation V (Snapshot V)

namespace Operation

open Process

variable {S V : Type} {mode : Threading} {n : Nat}

/-- The number of entries, one shard after another. -/
def countAll : Process mode n S V Nat := do
  let tables ← captureAll
  return sumOf (tables.map fun table => table.size)

/-- Reads the counters of a shard. -/
def readTally (i : Fin n) : Process mode n S V Tally := do
  let reads ← perform (.counted i .reads)
  let writes ← perform (.counted i .writes)
  let removes ← perform (.counted i .removes)
  let acquisitions ← perform (.counted i .acquisitions)
  return { reads, writes, removes, acquisitions }

/-- Removes a key from the shard it is routed to. -/
def removal (key : String) : Process mode n S V (Option V) := do
  let i ← perform (.route key)
  request i .exclusive
  let table ← perform (.load i)
  perform (.put i (table.erase key))
  perform (.release i .exclusive)
  if table.contains key then
    perform (.bump i .removes)
  return table[key]?

/-- Looks a key up in the shard it is routed to. -/
def lookup (key : String) : Process mode n S V (Option V) := do
  let i ← perform (.route key)
  let table ← capture i
  perform (.bump i .reads)
  return table[key]?

/-- The actions that an operation consists of. -/
def process : {β : Type} → Operation V β → Process mode n S V β
  | _, .set key value => do
    let i ← perform (.route key)
    request i .exclusive
    let table ← perform (.load i)
    perform (.put i (table.insert key value))
    perform (.release i .exclusive)
    perform (.bump i .writes)
  | _, .setIfAbsent key value => do
    let i ← perform (.route key)
    request i .exclusive
    let table ← perform (.load i)
    if table.contains key then
      perform (.release i .exclusive)
      return false
    else
      perform (.put i (table.insert key value))
      perform (.bump i .writes)
      perform (.release i .exclusive)
      return true
  | _, .get key => lookup key
  | _, .has key => do
    let found ← lookup key
    return found.isSome
  | _, .remove key => do
    let _ ← removal key
  | _, .pop key => removal key
  | _, .shardIndex key => do
    let i ← perform (.route key)
    return i.val
  | _, .shardCount => return n
  | _, .count => countAll
  | _, .keys => do
    let _ ← countAll
    let tables ← collectAll
    return tables.flatMap fun table => table.keys
  | _, .items => do
    let _ ← countAll
    let tables ← captureAll
    return tables.foldl (fun items table => items.addAll table.toList) ∅
  | _, .stats => do
    let tables ← captureAll
    let operations ← (List.finRange n).mapM readTally
    let shardSizes := tables.map fun table => table.size
    return { size := sumOf shardSizes, shardSizes, operations }
  | _, .snapshot => do
    let tables ← collectAll
    return .ofTables tables

end Operation

namespace Process

variable {S V β : Type} {mode : Threading} {n : Nat}

/-- Replaces the value of a key by what a callback makes of the old one, under one exclusive hold
of the shard. A callback that unwinds leaves the table as it was. -/
def update (key : String) (callback : Option V → Process mode n S V (V × β)) :
    Process mode n S V (V × β) := do
  let i ← perform (.route key)
  request i .exclusive
  let table ← perform (.load i)
  let (value, b) ← underMark i .exclusive (callback table[key]?)
  perform (.put i (table.insert key value))
  perform (.bump i .writes)
  perform (.release i .exclusive)
  return (value, b)

/-- Calls back for each entry of one shard, under its shared lock. The mark stands even if the
shard is empty. -/
def visitShard (callback : String → V → Process mode n S V β) (i : Fin n) :
    Process mode n S V (List ((String × V) × β)) := do
  request i .shared
  let table ← perform (.load i)
  let visited ← underMark i .shared do
    table.toList.mapM fun entry => do
      let b ← callback entry.1 entry.2
      return (entry, b)
  perform (.release i .shared)
  return visited

/-- Calls back for each entry of each shard, in the order of the shards. -/
def visit (callback : String → V → Process mode n S V β) :
    Process mode n S V (List ((String × V) × β)) := do
  let visited ← (List.finRange n).mapM (visitShard callback)
  return visited.flatten

end Process

/-- A caller's code on a store with values of type `V`, with variables of its own of type `S`,
that ends with a value of type `α`. -/
inductive Program (mode : Threading) (S V : Type) : Type → Type 1 where
  /-- Ends with a value. -/
  | done {α : Type} (value : α) : Program mode S V α
  /-- Unwinds. -/
  | unwind {α : Type} (fault : Fault) : Program mode S V α
  /-- Makes a call and goes on with its answer. -/
  | call {α β : Type} (operation : Operation V β) (next : β → Program mode S V α) :
      Program mode S V α
  /-- Changes the caller's own variables and goes on. -/
  | withOwn {α β : Type} (change : S → β × S) (next : β → Program mode S V α) :
      Program mode S V α
  /-- Stores under a key what a callback makes of its old value, and goes on with the stored value
  and with what else the callback returned. -/
  | update {α β : Type} (key : String) (callback : Option V → Program mode S V (V × β))
      (next : V × β → Program mode S V α) : Program mode S V α
  /-- Calls back for every entry and goes on with the entries and the callbacks' results. -/
  | visit {α β : Type} (callback : String → V → Program mode S V β)
      (next : List ((String × V) × β) → Program mode S V α) : Program mode S V α
  /-- Runs a part and goes on with its result, or with the fault that it unwound with. -/
  | attempt {α β : Type} (part : Program mode S V β)
      (next : Except Fault β → Program mode S V α) : Program mode S V α
  /-- Has a part done by a new thread with variables of its own, waits for its end, and goes on with
  its result, or with the fault that it unwound with. -/
  | onThread {α β : Type} (may : mode = .spawning) (own : S) (part : Program mode S V β)
      (next : Except Fault β → Program mode S V α) : Program mode S V α

namespace Program

variable {σ S V α β : Type} {mode : Threading} {n : Nat}

/-- One program after another. -/
def bind : Program mode S V α → (α → Program mode S V β) → Program mode S V β
  | .done value, rest => rest value
  | .unwind fault, _ => .unwind fault
  | .call operation next, rest => .call operation fun b => (next b).bind rest
  | .withOwn change next, rest => .withOwn change fun b => (next b).bind rest
  | .update key callback next, rest => .update key callback fun b => (next b).bind rest
  | .visit callback next, rest => .visit callback fun b => (next b).bind rest
  | .attempt part next, rest => .attempt part fun result => (next result).bind rest
  | .onThread may own part next, rest =>
    .onThread may own part fun result => (next result).bind rest

instance : Monad (Program mode S V) where
  pure := .done
  bind := bind

@[simp] theorem pure_eq (value : α) : (pure value : Program mode S V α) = .done value := rfl

@[simp] theorem bind_eq (p : Program mode S V α) (f : α → Program mode S V β) :
    p >>= f = p.bind f := rfl

theorem bind_done (p : Program mode S V α) : p.bind .done = p := by
  induction p with
  | done => rfl
  | unwind => rfl
  | call operation next ih => simp only [bind, ih]
  | withOwn change next ih => simp only [bind, ih]
  | update key callback next _ ih => simp only [bind, ih]
  | visit callback next _ ih => simp only [bind, ih]
  | attempt part next _ ih => simp only [bind, ih]
  | onThread may own part next _ ih => simp only [bind, ih]

theorem bind_assoc {γ : Type} (p : Program mode S V α) (f : α → Program mode S V β)
    (g : β → Program mode S V γ) : (p.bind f).bind g = p.bind fun a => (f a).bind g := by
  induction p with
  | done => rfl
  | unwind => rfl
  | call operation next ih => simp only [bind, ih]
  | withOwn change next ih => simp only [bind, ih]
  | update key callback next _ ih => simp only [bind, ih]
  | visit callback next _ ih => simp only [bind, ih]
  | attempt part next _ ih => simp only [bind, ih]
  | onThread may own part next _ ih => simp only [bind, ih]

instance : LawfulMonad (Program mode S V) :=
  LawfulMonad.mk' _ bind_done (fun _ _ => rfl) bind_assoc

/-- The actions that a program consists of on a store of `n` shards. -/
def process : {α : Type} → Program mode S V α → Process mode n S V α
  | _, .done value => .done value
  | _, .unwind fault => .unwind fault
  | _, .call operation next => operation.process.bind fun b => (next b).process
  | _, .withOwn change next => .withOwn change fun b => (next b).process
  | _, .update key callback next =>
    (Process.update key fun old => (callback old).process).bind fun b => (next b).process
  | _, .visit callback next =>
    (Process.visit fun key value => (callback key value).process).bind fun b => (next b).process
  | _, .attempt part next => .attempt none part.process fun result => (next result).process
  | _, .onThread may own part next =>
    .onThread may own part.process fun result => (next result).process

/-- The actions of one program after another are those of the first, then those of the second. -/
theorem process_bind (p : Program mode S V α) (f : α → Program mode S V β) :
    (p.bind f).process (n := n) = p.process.bind fun a => (f a).process := by
  induction p with
  | done => rfl
  | unwind => rfl
  | call operation next ih => simp only [bind, process, ih, Process.bind_assoc]
  | withOwn change next ih => simp only [bind, process, Process.bind, ih]
  | update key callback next _ ih => simp only [bind, process, ih, Process.bind_assoc]
  | visit callback next _ ih => simp only [bind, process, ih, Process.bind_assoc]
  | attempt part next _ ih => simp only [bind, process, Process.bind, ih]
  | onThread may own part next _ ih => simp only [bind, process, Process.bind, ih]

/-- Runs a program on a thread. -/
def run (me : ThreadId) (program : Program mode S V α) (store : Store σ V n) (own : S) :
    Outcome α × Store σ V n × S :=
  program.process.run me store own

/-- A program after another starts where the other ended. -/
theorem run_bind (me : ThreadId) (p : Program mode S V α) (f : α → Program mode S V β)
    (store : Store σ V n) (own : S) :
    (p.bind f).run me store own =
      match p.run me store own with
      | (.returned a, store, own) => (f a).run me store own
      | (.unwound fault, store, own) => (.unwound fault, store, own)
      | (.blocked, store, own) => (.blocked, store, own) := by
  rw [run, process_bind, Process.run_bind]
  rfl

/-! ## The calls as programs -/

/-- Makes one call. -/
def ask (operation : Operation V β) : Program mode S V β :=
  .call operation .done

/-- Making one call runs its actions. -/
theorem run_ask (me : ThreadId) (operation : Operation V β) (store : Store σ V n) (own : S) :
    (ask operation : Program mode S V β).run me store own =
      (operation.process : Process mode n S V β).run me store own := by
  rw [run, ask, process, show (fun b : β => (done b : Program mode S V β).process) =
    (Process.done : β → Process mode n S V β) from rfl, Process.bind_done]

/-- Inserts or overwrites. -/
def set (key : String) (value : V) : Program mode S V Unit :=
  ask (.set key value)

/-- Inserts or overwrites every pair, in order. Each pair stands on its own: a fault leaves the
earlier ones in place. -/
def setMany (pairs : List (String × V)) : Program mode S V Unit :=
  pairs.forM fun pair => set pair.1 pair.2

/-- Inserts unless the key is there; says whether it inserted. -/
def setIfAbsent (key : String) (value : V) : Program mode S V Bool :=
  ask (.setIfAbsent key value)

/-- Looks a key up. -/
def get (key : String) : Program mode S V (Option V) :=
  ask (.get key)

/-- Whether a key is there. -/
def has (key : String) : Program mode S V Bool :=
  ask (.has key)

/-- Removes a key if it is there. -/
def remove (key : String) : Program mode S V Unit :=
  ask (.remove key)

/-- Removes a key and hands out its value. -/
def pop (key : String) : Program mode S V (Option V) :=
  ask (.pop key)

/-- The shard that a key is routed to. -/
def shardIndex (key : String) : Program mode S V Nat :=
  ask (.shardIndex key)

/-- The number of shards. -/
def shardCount : Program mode S V Nat :=
  ask .shardCount

/-- The number of entries. -/
def count : Program mode S V Nat :=
  ask .count

/-- Whether there is no entry. -/
def isEmpty : Program mode S V Bool := do
  let size ← count
  return size == 0

/-- The keys, once for each shard that holds them. -/
def keys : Program mode S V (List String) :=
  ask .keys

/-- All entries as one table. -/
def items : Program mode S V (Table V) :=
  ask .items

/-- Sizes and tallies. -/
def stats : Program mode S V Stats :=
  ask .stats

/-- Captures every shard. -/
def snapshot : Program mode S V (Snapshot V) :=
  ask .snapshot

/-- Changes the caller's own variables. -/
def modifyOwn (change : S → β × S) : Program mode S V β :=
  .withOwn change .done

/-- Continues with a result, or unwinds with a fault. -/
def ofExcept : Except Fault α → Program mode S V α
  | .ok value => .done value
  | .error fault => .unwind fault

/-- Stores what a callback makes of the old value; the stored value and what else the callback
returned. -/
def updateWith (key : String) (callback : Option V → Program mode S V (V × β)) :
    Program mode S V (V × β) :=
  .update key callback .done

/-- Updating runs the actions of the update, with the callback's actions for the callback. -/
theorem run_updateWith (me : ThreadId) (key : String)
    (callback : Option V → Program mode S V (V × β)) (store : Store σ V n) (own : S) :
    (updateWith key callback).run me store own =
      (Process.update key fun old => (callback old).process).run me store own := by
  rw [run, updateWith, process,
    show (fun b : V × β => (done b : Program mode S V (V × β)).process) =
      (Process.done : V × β → Process mode n S V (V × β)) from rfl, Process.bind_done]

/-- Stores the combination of the old value and a new one, after running `before` under the lock.
The stored value and the result of `before`. -/
def upsertAfter (key : String) (value : V) (combine : Option V → V → Except Fault V)
    (before : Program mode S V β) : Program mode S V (V × β) :=
  updateWith key fun old => do
    let b ← before
    let combined ← ofExcept (combine old value)
    return (combined, b)

/-- Stores the combination of the old value and a new one. -/
def upsert (key : String) (value : V) (combine : Option V → V → Except Fault V) :
    Program mode S V V := do
  let (stored, _) ← upsertAfter key value combine (.done ())
  return stored

/-- Calls back for every entry; the entries with the callbacks' results. -/
def forEach (callback : String → V → Program mode S V β) :
    Program mode S V (List ((String × V) × β)) :=
  .visit callback .done

/-- Calling back for every entry runs the actions of the visit, with the callback's actions for the
callback. -/
theorem run_forEach (me : ThreadId) (callback : String → V → Program mode S V β)
    (store : Store σ V n) (own : S) :
    (forEach callback).run me store own =
      (Process.visit fun key value => (callback key value).process).run me store own := by
  rw [run, forEach, process, show (fun b : List ((String × V) × β) =>
    (done b : Program mode S V _).process) =
      (Process.done : List ((String × V) × β) → Process mode n S V _) from rfl, Process.bind_done]

/-- Runs a program and catches a fault. -/
def caught (part : Program mode S V β) : Program mode S V (Except Fault β) :=
  .attempt part .done

/-- Runs programs one after another, each on a new thread and each with variables of its own that
start as `own`; how each ended. -/
def onThreads (own : S) (parts : List (Program .spawning S V β)) :
    Program .spawning S V (List (Except Fault β)) :=
  parts.mapM fun part => .onThread rfl own part .done

end Program

end ShardStore
