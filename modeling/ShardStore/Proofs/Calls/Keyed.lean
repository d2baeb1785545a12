import ShardStore.Process.Frame
import ShardStore.Program
import ShardStore.Proofs.Tables

/-!
# Keyed calls, in one equation each

A keyed call asks the router once and then works on one shard. `Keyed.answer` and `Keyed.onShard`
say what it answers and what it leaves there, as functions of that shard alone; `run_keyed` says
that running the call's actions comes to just that, and `run_keyed_refused` that a shard whose
callback this thread is running refuses it without a trace. Statements about keyed calls need no
other fact about their actions.
-/

namespace ShardStore

namespace Store

variable {σ V : Type} {n : Nat}

/-- Two changes of one shard are one change. -/
theorem modify_modify (store : Store σ V n) (i : Fin n) (f g : Shard V → Shard V) :
    (store.modify i f).modify i g = store.modify i fun shard => g (f shard) := by
  simp only [modify]
  congr 2
  ext j hj
  · simp
  · simp only [Array.getElem_modify]
    split <;> rfl

/-- Only what a change makes of the shard that is there matters. -/
theorem modify_congr (store : Store σ V n) {i : Fin n} {f g : Shard V → Shard V}
    (h : f (store.shard i) = g (store.shard i)) : store.modify i f = store.modify i g := by
  simp only [modify]
  congr 2
  ext j hj
  · simp
  · simp only [Array.getElem_modify]
    split
    · next hij => subst hij; exact h
    · rfl

/-- The table of the shard that was changed. -/
@[simp] theorem table_modify_self (store : Store σ V n) (i : Fin n) (change : Shard V → Shard V) :
    (store.modify i change).table i = (change (store.shard i)).table := by
  rw [table, shard_modify_self]

theorem table_modify_ne (store : Store σ V n) {i j : Fin n} (h : i ≠ j)
    (change : Shard V → Shard V) : (store.modify i change).table j = store.table j := by
  rw [table, shard_modify_ne store h, table]

end Store

/-! ## Keyed calls -/

/-- The calls that concern one key, with the type of their answers. -/
inductive Keyed (V : Type) : Type → Type where
  /-- Inserts or overwrites. -/
  | set (key : String) (value : V) : Keyed V Unit
  /-- Inserts unless the key is there; says whether it inserted. -/
  | setIfAbsent (key : String) (value : V) : Keyed V Bool
  /-- Looks a key up. -/
  | get (key : String) : Keyed V (Option V)
  /-- Whether a key is there. -/
  | has (key : String) : Keyed V Bool
  /-- Removes a key if it is there. -/
  | remove (key : String) : Keyed V Unit
  /-- Removes a key and hands out its value. -/
  | pop (key : String) : Keyed V (Option V)

namespace Keyed

variable {V β : Type}

/-- The call as an operation on a store. -/
def operation : {β : Type} → Keyed V β → Operation V β
  | _, set key value => .set key value
  | _, setIfAbsent key value => .setIfAbsent key value
  | _, get key => .get key
  | _, has key => .has key
  | _, remove key => .remove key
  | _, pop key => .pop key

/-- The key that a call is about. -/
def key : {β : Type} → Keyed V β → String
  | _, set key _ => key
  | _, setIfAbsent key _ => key
  | _, get key => key
  | _, has key => key
  | _, remove key => key
  | _, pop key => key

/-- How a call needs the lock. -/
def access : {β : Type} → Keyed V β → Access
  | _, get _ => .shared
  | _, has _ => .shared
  | _, _ => .exclusive

/-- What a call on a table answers. -/
def answer (table : Table V) : {β : Type} → Keyed V β → β
  | _, set _ _ => ()
  | _, setIfAbsent key _ => !table.contains key
  | _, get key => table[key]?
  | _, has key => table[key]?.isSome
  | _, remove _ => ()
  | _, pop key => table[key]?

/-- The table that a call on a table leaves. -/
def after (table : Table V) : {β : Type} → Keyed V β → Table V
  | _, set key value => table.insert key value
  | _, setIfAbsent key value => if table.contains key then table else table.insert key value
  | _, get _ => table
  | _, has _ => table
  | _, remove key => table.erase key
  | _, pop key => table.erase key

/-- What a call on a table counts, besides its request for the lock. -/
def events (table : Table V) : {β : Type} → Keyed V β → List Counter
  | _, set _ _ => [.writes]
  | _, setIfAbsent key _ => if table.contains key then [] else [.writes]
  | _, get _ => [.reads]
  | _, has _ => [.reads]
  | _, remove key => if table.contains key then [.removes] else []
  | _, pop key => if table.contains key then [.removes] else []

end Keyed

/-! ## Keyed calls look at their key only -/

namespace Keyed

variable {V β : Type}

/-- Only the value under the call's key matters for the answer. -/
theorem answer_congr (call : Keyed V β) {table table' : Table V}
    (h : table[call.key]? = table'[call.key]?) : call.answer table = call.answer table' := by
  cases call with
  | set => rfl
  | setIfAbsent k value =>
    simp only [Keyed.key] at h
    simp only [answer, Table.contains_eq_isSome, h]
  | get => exact h
  | has => exact congrArg Option.isSome h
  | remove => rfl
  | pop => exact h

/-- Other keys keep their values. -/
theorem lookup_after_of_ne (call : Keyed V β) {k : String} (h : call.key ≠ k) (table : Table V) :
    (call.after table)[k]? = table[k]? := by
  cases call with
  | set => exact (Table.lookup_insert ..).trans (if_neg h)
  | setIfAbsent =>
    rw [after]
    split
    · rfl
    · exact (Table.lookup_insert ..).trans (if_neg h)
  | get => rfl
  | has => rfl
  | remove => exact (Table.lookup_erase ..).trans (if_neg h)
  | pop => exact (Table.lookup_erase ..).trans (if_neg h)

/-- What the call's key holds afterwards depends on what it held before. -/
theorem lookup_after_congr (call : Keyed V β) {table table' : Table V}
    (h : table[call.key]? = table'[call.key]?) :
    (call.after table)[call.key]? = (call.after table')[call.key]? := by
  cases call with
  | set => simp only [after, Keyed.key, Table.lookup_insert, if_true]
  | setIfAbsent k value =>
    simp only [Keyed.key] at h
    simp only [after, Keyed.key, Table.contains_eq_isSome, h]
    split
    · exact h
    · simp only [Table.lookup_insert, if_true]
  | get => exact h
  | has => exact h
  | remove => simp only [after, Keyed.key, Table.lookup_erase, if_true]
  | pop => simp only [after, Keyed.key, Table.lookup_erase, if_true]

end Keyed

/-- Counts several events, one after another. -/
def Tally.bumpAll (tally : Tally) (counters : List Counter) : Tally :=
  counters.foldl Tally.bump tally

/-- What a keyed call leaves of the shard it is routed to. -/
def Keyed.onShard {V β : Type} (call : Keyed V β) (shard : Shard V) : Shard V :=
  { shard with
    table := call.after shard.table
    tally := (shard.tally.bump .acquisitions).bumpAll (call.events shard.table) }

namespace Process

variable {σ S V α β : Type} {mode : Threading} {n : Nat}

/-! ## Running requests and scopes -/

/-- Asking the router, and then the rest. -/
theorem run_route_bind (me : ThreadId) {key : String} {i : Fin n} {store store' : Store σ V n}
    (hroute : store.route key = (.ok i, store')) (rest : Fin n → Process mode n S V α) (own : S) :
    ((perform (.route key)).bind rest).run me store own = (rest i).run me store' own := by
  simp only [run_perform_bind, Action.perform, hroute]

/-- A router that gives up ends a call. -/
theorem run_route_bind_error (me : ThreadId) {key : String} {fault : Fault}
    {store store' : Store σ V n} (hroute : store.route key = (.error fault, store'))
    (rest : Fin n → Process mode n S V α) (own : S) :
    ((perform (.route key)).bind rest).run me store own = (.unwound fault, store', own) := by
  simp only [run_perform_bind, Action.perform, hroute]

/-- Entering a free shard, and then the rest. -/
theorem run_enter_bind (me : ThreadId) {i : Fin n} {access : Access} {store : Store σ V n}
    (hlock : (store.shard i).lock.grants access = true) (rest : Unit → Process mode n S V α)
    (own : S) :
    ((enter i access).bind rest).run me store own =
      (rest ()).run me (store.modify i fun shard =>
        { shard with
          tally := shard.tally.bump .acquisitions
          lock := shard.lock.take me access }) own := by
  rw [run_bind, run_enter]
  simp only [hlock, if_true, Store.modify_modify]

/-- A granted request, and then the rest. -/
theorem run_request_bind (me : ThreadId) {i : Fin n} {access : Access} {store : Store σ V n}
    (hmark : me ∉ (store.shard i).markers)
    (hlock : (store.shard i).lock.grants access = true) (rest : Unit → Process mode n S V α)
    (own : S) :
    ((request i access).bind rest).run me store own =
      (rest ()).run me (store.modify i fun shard =>
        { shard with
          tally := shard.tally.bump .acquisitions
          lock := shard.lock.take me access }) own := by
  rw [run_bind, run_request, if_neg hmark]
  simp only [hlock, if_true, Store.modify_modify]

/-- A request is refused, and nothing else happens, where this thread is running a callback. -/
theorem run_request_bind_refused (me : ThreadId) {i : Fin n} {access : Access}
    {store : Store σ V n} (hmark : me ∈ (store.shard i).markers)
    (rest : Unit → Process mode n S V α) (own : S) :
    ((request i access).bind rest).run me store own = (.unwound .reentrant, store, own) := by
  rw [run_bind, run_request, if_pos hmark]

/-- A request waits, counted, where somebody holds the lock. -/
theorem run_request_bind_blocked (me : ThreadId) {i : Fin n} {access : Access}
    {store : Store σ V n} (hmark : me ∉ (store.shard i).markers)
    (hlock : (store.shard i).lock.grants access = false) (rest : Unit → Process mode n S V α)
    (own : S) :
    ((request i access).bind rest).run me store own =
      (.blocked, store.modify i fun shard =>
        { shard with tally := shard.tally.bump .acquisitions }, own) := by
  rw [run_bind, run_request, if_neg hmark]
  simp only [hlock, Bool.false_eq_true, if_false]

/-- Running one action that returns, and then the rest. -/
theorem run_perform_bind_of_returned (me : ThreadId) {action : Action n V β}
    {store store' : Store σ V n} {b : β} (h : action.perform me store = (.returned b, store'))
    (rest : β → Process mode n S V α) (own : S) :
    ((perform action).bind rest).run me store own = (rest b).run me store' own := by
  rw [run_perform_bind, h]

/-- Running one action that returns, and nothing else. -/
theorem run_perform_of_returned (me : ThreadId) {action : Action n V β}
    {store store' : Store σ V n} {b : β} (h : action.perform me store = (.returned b, store'))
    (own : S) :
    (perform action : Process mode n S V β).run me store own = (.returned b, store', own) := by
  simp only [perform, run, h]

/-- A check that finds no mark, and then the rest. -/
theorem run_check_bind (me : ThreadId) {i : Fin n} {store : Store σ V n}
    (hmark : me ∉ (store.shard i).markers) (rest : Unit → Process mode n S V α) (own : S) :
    ((perform (.check i)).bind rest).run me store own = (rest ()).run me store own :=
  run_perform_bind_of_returned me (by rw [Action.perform, if_neg hmark]) rest own

/-- A check that finds one is refused, and nothing else happens. -/
theorem run_check_bind_refused (me : ThreadId) {i : Fin n} {store : Store σ V n}
    (hmark : me ∈ (store.shard i).markers) (rest : Unit → Process mode n S V α) (own : S) :
    ((perform (.check i)).bind rest).run me store own = (.unwound .reentrant, store, own) := by
  rw [run_perform_bind, Action.perform, if_pos hmark]

/-- A worker's reading of the table of a free shard counts one request and changes nothing else. -/
theorem run_collect_bind (me : ThreadId) {i : Fin n} {store : Store σ V n}
    (hlock : (store.shard i).lock.grants .shared = true)
    (rest : Table V → Process mode n S V α) (own : S) :
    ((collect i).bind rest).run me store own =
      (rest (store.table i)).run me (store.modify i fun shard =>
        { shard with tally := shard.tally.bump .acquisitions }) own := by
  simp only [collect, bind_eq, bind_assoc, run_enter_bind me hlock, pure_eq, bind,
    run_perform_bind, Action.perform, Store.modify_modify, Store.table_modify_self]
  exact congrArg (fun store' => (rest (store.table i)).run me store' own)
    (Store.modify_congr store (by simp only [Lock.release_take hlock]))

/-- So does reading it where this thread runs no callback. -/
theorem run_capture_bind (me : ThreadId) {i : Fin n} {store : Store σ V n}
    (hmark : me ∉ (store.shard i).markers)
    (hlock : (store.shard i).lock.grants .shared = true)
    (rest : Table V → Process mode n S V α) (own : S) :
    ((capture i).bind rest).run me store own =
      (rest (store.table i)).run me (store.modify i fun shard =>
        { shard with tally := shard.tally.bump .acquisitions }) own := by
  rw [capture, bind_eq, bind_assoc, run_check_bind me hmark, run_collect_bind me hlock]

/-- Where it does, reading is refused. -/
theorem run_capture_bind_refused (me : ThreadId) {i : Fin n} {store : Store σ V n}
    (hmark : me ∈ (store.shard i).markers) (rest : Table V → Process mode n S V α) (own : S) :
    ((capture i).bind rest).run me store own = (.unwound .reentrant, store, own) := by
  rw [capture, bind_eq, bind_assoc, run_check_bind_refused me hmark]

/-- Removing from a free shard. -/
theorem run_removal (me : ThreadId) {key : String} {i : Fin n} {store store' : Store σ V n}
    (hroute : store.route key = (.ok i, store')) (hmark : me ∉ (store'.shard i).markers)
    (hlock : (store'.shard i).lock.grants .exclusive = true) (own : S) :
    (Operation.removal key : Process mode n S V (Option V)).run me store own =
      (.returned (store'.table i)[key]?, store'.modify i (Keyed.pop key).onShard, own) := by
  simp only [Operation.removal, bind_eq, pure_eq]
  rw [run_route_bind me hroute, run_request_bind me hmark hlock]
  simp only [run_perform_bind, Action.perform, Store.modify_modify, Store.table_modify_self]
  split
  · next hfound =>
    simp only [run_perform_bind, Action.perform, Store.modify_modify, run]
    rw [Store.modify_congr store' (g := (Keyed.pop key).onShard)
      (by simp only [Keyed.onShard, Keyed.after, Keyed.events, hfound, if_true, Tally.bumpAll,
        List.foldl_cons, List.foldl_nil, Lock.release_take hlock])]
    rfl
  · next hmissed =>
    simp only [run]
    rw [Store.modify_congr store' (g := (Keyed.pop key).onShard)
      (by simp only [Keyed.onShard, Keyed.after, Keyed.events, hmissed, if_false, Tally.bumpAll,
        List.foldl_nil, Lock.release_take hlock, Bool.false_eq_true])]
    rfl

/-- Looking up in a free shard. -/
theorem run_lookup (me : ThreadId) {key : String} {i : Fin n} {store store' : Store σ V n}
    (hroute : store.route key = (.ok i, store')) (hmark : me ∉ (store'.shard i).markers)
    (hlock : (store'.shard i).lock.grants .shared = true) (own : S) :
    (Operation.lookup key : Process mode n S V (Option V)).run me store own =
      (.returned (store'.table i)[key]?, store'.modify i (Keyed.get key).onShard, own) := by
  simp only [Operation.lookup, bind_eq, pure_eq]
  rw [run_route_bind me hroute, run_capture_bind me hmark hlock]
  simp only [run_perform_bind, Action.perform, Store.modify_modify, run]
  rfl

/-- A keyed call on a free shard answers and leaves what it says. -/
theorem run_keyed (me : ThreadId) (call : Keyed V β) {i : Fin n} {store store' : Store σ V n}
    (hroute : store.route call.key = (.ok i, store')) (hmark : me ∉ (store'.shard i).markers)
    (hlock : (store'.shard i).lock.grants call.access = true) (own : S) :
    (call.operation.process : Process mode n S V β).run me store own =
      (.returned (call.answer (store'.table i)), store'.modify i call.onShard, own) := by
  cases call with
  | set key value =>
    simp only [Keyed.key, Keyed.access] at hroute hlock
    simp only [Keyed.operation, Operation.process, bind_eq]
    rw [run_route_bind me hroute, run_request_bind me hmark hlock]
    simp only [run_perform_bind, Action.perform, Store.modify_modify, Store.table_modify_self]
    rw [run_perform_of_returned me rfl, Store.modify_modify,
      Store.modify_congr store' (g := (Keyed.set key value).onShard)
        (by simp only [Keyed.onShard, Keyed.after, Keyed.events, Tally.bumpAll, List.foldl_cons,
          List.foldl_nil, Lock.release_take hlock])]
  | setIfAbsent key value =>
    simp only [Keyed.key, Keyed.access] at hroute hlock
    simp only [Keyed.operation, Operation.process, bind_eq, pure_eq]
    rw [run_route_bind me hroute, run_request_bind me hmark hlock]
    simp only [run_perform_bind, Action.perform, Store.table_modify_self]
    split
    · -- The key is there: the lock is given back and nothing counted.
      next hfound =>
      simp only [run_perform_bind, Action.perform, Store.modify_modify, run, Keyed.answer,
        Store.table, hfound, Bool.not_true]
      rw [Store.modify_congr store' (g := (Keyed.setIfAbsent key value).onShard)
        (by simp only [Keyed.onShard, Keyed.after, Keyed.events, hfound, if_true, Tally.bumpAll,
          List.foldl_nil, Lock.release_take hlock])]
    · next hmissed =>
      simp only [run_perform_bind, Action.perform, Store.modify_modify, run, Keyed.answer,
        Store.table, Bool.not_eq_true] at hmissed ⊢
      rw [hmissed, Store.modify_congr store' (g := (Keyed.setIfAbsent key value).onShard)
        (by simp only [Keyed.onShard, Keyed.after, Keyed.events, hmissed, if_false, Tally.bumpAll,
          List.foldl_cons, List.foldl_nil, Lock.release_take hlock, Bool.false_eq_true])]
      rfl
  | get key => exact run_lookup me hroute hmark hlock own
  | has key =>
    simp only [Keyed.key, Keyed.access] at hroute hlock
    simp only [Keyed.operation, Operation.process, bind_eq, pure_eq]
    rw [run_bind, run_lookup me hroute hmark hlock]
    rfl
  | remove key =>
    simp only [Keyed.key, Keyed.access] at hroute hlock
    simp only [Keyed.operation, Operation.process, bind_eq, pure_eq]
    rw [run_bind, run_removal me hroute hmark hlock]
    rfl
  | pop key => exact run_removal me hroute hmark hlock own

/-- Every keyed call starts with one question to the router and one request for the shard that
the router names. -/
theorem exists_process_eq (mode : Threading) (call : Keyed V β) :
    ∃ rest : Fin n → Unit → Process mode n S V β, call.operation.process =
      (perform (.route call.key)).bind fun i => (request i call.access).bind (rest i) := by
  cases call with
  | set => exact ⟨_, rfl⟩
  | setIfAbsent => exact ⟨_, rfl⟩
  | get => exact ⟨_, rfl⟩
  | has => exact ⟨_, rfl⟩
  | remove => exact ⟨_, rfl⟩
  | pop => exact ⟨_, rfl⟩

/-- A keyed call on a shard whose callback this thread is running leaves only the router's state
changed. -/
theorem run_keyed_refused (me : ThreadId) (call : Keyed V β) {i : Fin n} {store store' : Store σ V n}
    (hroute : store.route call.key = (.ok i, store')) (hmark : me ∈ (store'.shard i).markers)
    (own : S) :
    (call.operation.process : Process mode n S V β).run me store own =
      (.unwound .reentrant, store', own) := by
  obtain ⟨rest, hrest⟩ := exists_process_eq (n := n) (S := S) mode call
  rw [hrest, run_route_bind me hroute, run_request_bind_refused me hmark]

/-- A keyed call on a shard whose lock somebody holds waits. -/
theorem run_keyed_blocked (me : ThreadId) (call : Keyed V β) {i : Fin n} {store store' : Store σ V n}
    (hroute : store.route call.key = (.ok i, store')) (hmark : me ∉ (store'.shard i).markers)
    (hlock : (store'.shard i).lock.grants call.access = false) (own : S) :
    (call.operation.process : Process mode n S V β).run me store own =
      (.blocked, store'.modify i fun shard =>
        { shard with tally := shard.tally.bump .acquisitions }, own) := by
  obtain ⟨rest, hrest⟩ := exists_process_eq (n := n) (S := S) mode call
  rw [hrest, run_route_bind me hroute, run_request_bind_blocked me hmark hlock]

end Process

end ShardStore
