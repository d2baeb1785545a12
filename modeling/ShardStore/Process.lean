import ShardStore.Store

/-!
# Processes

What a thread does to a store, cut into steps that nothing can come between. An `Action` is one
such step: asking the router, checking a shard's marks, taking or giving back a lock, reading or
replacing a table, counting. A `Process` is a thread's whole course of actions: each action's
result decides how it goes on, it may unwind with a fault, and it may attempt a part of itself and
go on with that part's result or fault. A course of mode `Threading.spawning` may also have a part
of it done by a new thread, for whose end it waits.

## Shape of the module

`Action.perform` says what one action does. `Process.run` runs one thread to its end. The
interleavings of several threads use the same `Action.perform`, so both readings of an operation
come from one definition. Besides the store, a process has a state of its own type `S`: the
variables of the caller, which callbacks may change and which unwinding does not restore.
-/

namespace ShardStore

/-- The steps of a thread on a store of `n` shards that nothing can come between, with the type of
their results. -/
inductive Action (n : Nat) (V : Type) : Type → Type where
  /-- Hashes a key and asks the router for its shard. -/
  | route (key : String) : Action n V (Fin n)
  /-- Unwinds if this thread is running a callback under the shard's lock. -/
  | check (i : Fin n) : Action n V Unit
  /-- Counts one event. -/
  | bump (i : Fin n) (counter : Counter) : Action n V Unit
  /-- Takes the lock of a shard, or waits. -/
  | acquire (i : Fin n) (access : Access) : Action n V Unit
  /-- Gives the lock of a shard back. -/
  | release (i : Fin n) (access : Access) : Action n V Unit
  /-- Marks that a callback starts under the shard's lock. -/
  | mark (i : Fin n) : Action n V Unit
  /-- Takes the mark back. -/
  | unmark (i : Fin n) : Action n V Unit
  /-- Reads the table of a shard. -/
  | load (i : Fin n) : Action n V (Table V)
  /-- Replaces the table of a shard. -/
  | put (i : Fin n) (table : Table V) : Action n V Unit
  /-- Reads a counter; this needs no lock. -/
  | counted (i : Fin n) (counter : Counter) : Action n V UInt64

namespace Action

variable {σ V β : Type} {n : Nat}

/-- What an action of thread `me` does to a store. An action that waits leaves the store as it
was. -/
def perform (me : ThreadId) : Action n V β → Store σ V n → Outcome β × Store σ V n
  | .route key, store =>
    match store.route key with
    | (.ok i, store) => (.returned i, store)
    | (.error fault, store) => (.unwound fault, store)
  | .check i, store =>
    if me ∈ (store.shard i).markers then (.unwound .reentrant, store) else (.returned (), store)
  | .bump i counter, store =>
    (.returned (), store.modify i fun shard => { shard with tally := shard.tally.bump counter })
  | .acquire i access, store =>
    if (store.shard i).lock.grants access then
      (.returned (), store.modify i fun shard => { shard with lock := shard.lock.take me access })
    else (.blocked, store)
  | .release i access, store =>
    (.returned (), store.modify i fun shard => { shard with lock := shard.lock.release me access })
  | .mark i, store =>
    (.returned (), store.modify i fun shard => { shard with markers := shard.markers.enter me })
  | .unmark i, store =>
    (.returned (), store.modify i fun shard => { shard with markers := shard.markers.leave me })
  | .load i, store => (.returned (store.table i), store)
  | .put i table, store => (.returned (), store.modify i fun shard => { shard with table })
  | .counted i counter, store => (.returned ((store.shard i).tally.get counter), store)

end Action

/-- Whether the code of a thread keeps to that thread. -/
inductive Threading where
  /-- Everything happens on the one thread. -/
  | single
  /-- Parts may be done by new threads. -/
  | spawning
deriving DecidableEq, Repr

/-- The course of one thread on a store of `n` shards, with a state of its own of type `S`, that
ends with a value of type `α`. -/
inductive Process (mode : Threading) (n : Nat) (S V : Type) : Type → Type 1 where
  /-- Ends with a value. -/
  | done {α : Type} (value : α) : Process mode n S V α
  /-- Unwinds. -/
  | unwind {α : Type} (fault : Fault) : Process mode n S V α
  /-- Performs an action and goes on with its result. -/
  | act {α β : Type} (action : Action n V β) (next : β → Process mode n S V α) :
      Process mode n S V α
  /-- Changes the thread's own state and goes on. -/
  | withOwn {α β : Type} (change : S → β × S) (next : β → Process mode n S V α) :
      Process mode n S V α
  /-- Runs a part and goes on with its result, or with the fault that it unwound with. `scope` names
  the shard under whose lock the part runs, if the part is a callback. -/
  | attempt {α β : Type} (scope : Option (Fin n)) (part : Process mode n S V β)
      (next : Except Fault β → Process mode n S V α) : Process mode n S V α
  /-- Has a part done by a new thread that starts with the state `own`, waits for its end, and goes
  on with its result, or with the fault that it unwound with. -/
  | onThread {α β : Type} (may : mode = .spawning) (own : S) (part : Process mode n S V β)
      (next : Except Fault β → Process mode n S V α) : Process mode n S V α

namespace Process

variable {σ S V α β : Type} {mode : Threading} {n : Nat}

/-- One course after another. -/
def bind : Process mode n S V α → (α → Process mode n S V β) → Process mode n S V β
  | .done value, rest => rest value
  | .unwind fault, _ => .unwind fault
  | .act action next, rest => .act action fun b => (next b).bind rest
  | .withOwn change next, rest => .withOwn change fun b => (next b).bind rest
  | .attempt scope part next, rest => .attempt scope part fun result => (next result).bind rest
  | .onThread may own part next, rest =>
    .onThread may own part fun result => (next result).bind rest

instance : Monad (Process mode n S V) where
  pure := .done
  bind := bind

@[simp] theorem pure_eq (value : α) : (pure value : Process mode n S V α) = .done value := rfl

@[simp] theorem bind_eq (p : Process mode n S V α) (f : α → Process mode n S V β) :
    p >>= f = p.bind f := rfl

/-- The course that performs one action. -/
def perform (action : Action n V β) : Process mode n S V β :=
  .act action .done

/-- Runs a thread until it ends or waits, with the store and the thread's own state that it leaves.
Nobody else acts meanwhile, except the threads that it starts; it waits as long as one of these
waits. -/
def run (me : ThreadId) :
    {α : Type} → Process mode n S V α → Store σ V n → S → Outcome α × Store σ V n × S
  | _, .done value, store, own => (.returned value, store, own)
  | _, .unwind fault, store, own => (.unwound fault, store, own)
  | _, .act action next, store, own =>
    match action.perform me store with
    | (.returned b, store) => run me (next b) store own
    | (.unwound fault, store) => (.unwound fault, store, own)
    | (.blocked, store) => (.blocked, store, own)
  | _, .withOwn change next, store, own =>
    let (b, own) := change own
    run me (next b) store own
  | _, .attempt _ part next, store, own =>
    match run me part store own with
    | (.returned b, store, own) => run me (next (.ok b)) store own
    | (.unwound fault, store, own) => run me (next (.error fault)) store own
    | (.blocked, store, own) => (.blocked, store, own)
  | _, .onThread _ fresh part next, store, own =>
    match run me.child part store fresh with
    | (.returned b, store, _) => run me (next (.ok b)) store own
    | (.unwound fault, store, _) => run me (next (.error fault)) store own
    | (.blocked, store, _) => (.blocked, store, own)

theorem bind_done (p : Process mode n S V α) : p.bind .done = p := by
  induction p with
  | done => rfl
  | unwind => rfl
  | act action next ih => simp only [bind, ih]
  | withOwn change next ih => simp only [bind, ih]
  | attempt scope part next _ ih => simp only [bind, ih]
  | onThread may own part next _ ih => simp only [bind, ih]

theorem bind_assoc {γ : Type} (p : Process mode n S V α) (f : α → Process mode n S V β)
    (g : β → Process mode n S V γ) : (p.bind f).bind g = p.bind fun a => (f a).bind g := by
  induction p with
  | done => rfl
  | unwind => rfl
  | act action next ih => simp only [bind, ih]
  | withOwn change next ih => simp only [bind, ih]
  | attempt scope part next _ ih => simp only [bind, ih]
  | onThread may own part next _ ih => simp only [bind, ih]

instance : LawfulMonad (Process mode n S V) :=
  LawfulMonad.mk' _ bind_done (fun _ _ => rfl) bind_assoc

/-- A course after another starts where the other ended. -/
theorem run_bind (me : ThreadId) (p : Process mode n S V α) (f : α → Process mode n S V β)
    (store : Store σ V n) (own : S) :
    (p.bind f).run me store own =
      match p.run me store own with
      | (.returned a, store, own) => (f a).run me store own
      | (.unwound fault, store, own) => (.unwound fault, store, own)
      | (.blocked, store, own) => (.blocked, store, own) := by
  induction p generalizing store own with
  | done => rfl
  | unwind => rfl
  | act action next ih =>
    simp only [bind, run]
    split
    · next h => rw [ih]
    · rfl
    · rfl
  | withOwn change next ih => simp only [bind, run, ih]
  | attempt scope part next _ ih =>
    simp only [bind, run]
    split
    · rw [ih]
    · rw [ih]
    · rfl
  | onThread may fresh part next _ ih =>
    simp only [bind, run]
    split
    · rw [ih]
    · rw [ih]
    · rfl

/-! ## Requests for a shard -/

/-- Counts a request for the lock of a shard and takes the lock. -/
def enter (i : Fin n) (access : Access) : Process mode n S V Unit := do
  perform (.bump i .acquisitions)
  perform (.acquire i access)

/-- Requests the lock of a shard: check the marks, count the request, take the lock. -/
def request (i : Fin n) (access : Access) : Process mode n S V Unit := do
  perform (.check i)
  enter i access

/-- Reads the table of a shard under its shared lock and looks for no mark. This is the part of a
worker, which runs no callback. -/
def collect (i : Fin n) : Process mode n S V (Table V) := do
  enter i .shared
  let table ← perform (.load i)
  perform (.release i .shared)
  return table

/-- Reads the table of a shard under its shared lock. -/
def capture (i : Fin n) : Process mode n S V (Table V) := do
  perform (.check i)
  collect i

/-- Checks the marks of every shard without taking a lock. -/
def checkAll : Process mode n S V Unit :=
  (List.finRange n).forM fun i => perform (.check i)

/-- Reads every table in turn, each under its own lock. -/
def captureAll : Process mode n S V (List (Table V)) :=
  (List.finRange n).mapM capture

/-- Has every table read by a worker of its shard, and waits for them all. The workers look for no
mark of this thread and would wait for it, so it looks for its marks itself before any of them
starts. -/
def collectAll : Process mode n S V (List (Table V)) := do
  checkAll
  (List.finRange n).mapM collect

/-- Runs a callback under the lock of a shard that is already held. The mark is taken back however
the callback ends; if it unwinds, the lock is given back too and the fault passes on. -/
def underMark (i : Fin n) (access : Access) (callback : Process mode n S V β) :
    Process mode n S V β := do
  perform (.mark i)
  .attempt (some i) callback fun
    | .ok b => do
      perform (.unmark i)
      return b
    | .error fault => do
      perform (.unmark i)
      perform (.release i access)
      .unwind fault

end Process

end ShardStore
