import ShardStore.Proofs.PlainMap
import ShardStore.Proofs.Threads.Finish

/-!
# Calls about one key

The calls that several threads may make on one store at a time: keyed calls, and upserts whose
combination makes no call itself. Each is a question to the router, a request for one shard, and a
rest that needs no more than the locked table (`KeyCall.Splits`). `KeyCall.finish` says what the rest
comes to. Alone on a store at rest, the call comes to the same (`KeyCall.run_answered`).
-/

namespace ShardStore

/-- The calls about one key, outside any callback, of a caller with variables of type `S`. -/
inductive KeyCall (S V : Type) : Type 1 where
  | keyed {β : Type} (call : Keyed V β)
  /-- Combines the old value and the given one, which may change the caller's variables or
  unwind. -/
  | upsert (key : String) (given : V) (combine : Option V → V → S → Except Fault V × S)

/-- What a caller is told that catches faults. -/
def Answer.ofResult {V : Type} : Except Fault (Answer V) → Answer V
  | .ok answer => answer
  | .error cause => .fault cause

/-- A caught call tells its answer or its fault. -/
theorem Call.answered_eq {S V : Type} {mode : Threading} (call : Call S V) :
    (call.answered : Program mode S V (Answer V)) =
      .attempt call.program fun result => .done (Answer.ofResult result) := by
  rw [answered, Program.caught, Program.bind_eq, Program.bind]
  congr 1
  funext result
  cases result <;> rfl

namespace Keyed

open Process

variable {S V β : Type} {n : Nat}

/-- What is left of a removal under the lock hands out the value and counts if there was one. -/
theorem exists_rest_removal (key : String) :
    ∃ rest : Fin n → Unit → Process .single n S V (Option V),
      Operation.removal key = (perform (.route key)).bind (fun i =>
        (request i .exclusive).bind (rest i)) ∧
      ∀ i table own, (rest i ()).finish? i table own =
        some ⟨.ok table[key]?, table.erase key, own, (pop key).events table⟩ := by
  refine ⟨_, rfl, fun i table own => ?_⟩
  simp only [bind_eq, pure_eq, perform, Process.bind, finish?, Action.shard?, Action.onTable?,
    if_true, events, Option.bind_some]
  split
  · simp only [finish?, Action.shard?, Action.onTable?, if_true]; rfl
  · rfl

/-- What is left of a look-up under the lock tells the value and counts. -/
theorem exists_rest_lookup (key : String) :
    ∃ rest : Fin n → Unit → Process .single n S V (Option V),
      Operation.lookup key = (perform (.route key)).bind (fun i =>
        (request i .shared).bind (rest i)) ∧
      ∀ i table own, (rest i ()).finish? i table own =
        some ⟨.ok table[key]?, table, own, [.reads]⟩ := by
  refine ⟨_, rfl, fun i table own => ?_⟩
  simp only [bind_eq, pure_eq, perform, Process.bind, finish?, Action.shard?, Action.onTable?,
    if_true]
  rfl

/-- What is left of a keyed call under the lock comes to its answer on the table. -/
theorem exists_rest (call : Keyed V β) : ∃ rest : Fin n → Unit → Process .single n S V β,
    call.operation.process = (perform (.route call.key)).bind (fun i =>
      (request i call.access).bind (rest i)) ∧
    ∀ i table own, (rest i ()).finish? i table own =
      some ⟨.ok (call.answer table), call.after table, own, call.events table⟩ := by
  cases call with
  | set key value =>
    refine ⟨_, rfl, fun i table own => ?_⟩
    simp only [bind_eq, perform, Process.bind, finish?, Action.shard?, Action.onTable?, if_true]
    rfl
  | setIfAbsent key value =>
    refine ⟨_, rfl, fun i table own => ?_⟩
    simp only [bind_eq, pure_eq, perform, Process.bind, finish?, Action.shard?, Action.onTable?,
      if_true, answer, after, events, Option.bind_some]
    split
    · next hfound =>
      rw [hfound]
      simp only [finish?, Action.shard?, Action.onTable?, if_true]
      rfl
    · next hmissed =>
      rw [Bool.eq_false_of_not_eq_true hmissed]
      simp only [finish?, Action.shard?, Action.onTable?, if_true]
      rfl
  | get key => exact exists_rest_lookup key
  | has key =>
    obtain ⟨rest, hprocess, hfinish⟩ := exists_rest_lookup (S := S) (V := V) (n := n) key
    refine ⟨fun i _ => (rest i ()).bind fun found => .done found.isSome, ?_, fun i table own => ?_⟩
    · rw [operation, Operation.process, bind_eq, hprocess, Process.bind_assoc]
      rfl
    · exact finish?_bind_done (hfinish i table own) _
  | remove key =>
    obtain ⟨rest, hprocess, hfinish⟩ := exists_rest_removal (S := S) (V := V) (n := n) key
    refine ⟨fun i _ => (rest i ()).bind fun _ => .done (), ?_, fun i table own => ?_⟩
    · rw [operation, Operation.process, bind_eq, hprocess, Process.bind_assoc]
      rfl
    · exact finish?_bind_done (hfinish i table own) _
  | pop key => exact exists_rest_removal key

end Keyed

namespace KeyCall

variable {σ S V : Type} {n : Nat}

/-- The call as one of all calls. -/
def call : KeyCall S V → Call S V
  | keyed call => .keyed call
  | upsert key given combine => .upsert key given combine

/-- A call that inserts many pairs is a call for each of them. -/
def sets (pairs : List (String × V)) : List (KeyCall S V) :=
  pairs.map fun pair => .keyed (.set pair.1 pair.2)

theorem setMany_eq_forM_sets {mode : Threading} (pairs : List (String × V)) :
    (Program.setMany pairs : Program mode S V Unit) = (sets pairs).forM fun call => do
      let _ ← (call.call.program : Program mode S V (Answer V))
      return () := by
  induction pairs with
  | nil => rfl
  | cons pair rest ih =>
    have hbody : (Program.setMany (pair :: rest) : Program mode S V Unit) =
        (Program.set pair.1 pair.2).bind fun _ => Program.setMany rest := rfl
    rw [hbody, ih]
    rfl

/-- The key that a call is about. -/
def key : KeyCall S V → String
  | keyed call => call.key
  | upsert key _ _ => key

/-- How a call needs the lock. -/
def access : KeyCall S V → Access
  | keyed call => call.access
  | upsert _ _ _ => .exclusive

/-- What a call comes to on a table. -/
def finish (table : Table V) (own : S) : KeyCall S V → Finish S V (Answer V)
  | keyed call => ⟨.ok (call.tell (call.answer table)), call.after table, own, call.events table⟩
  | upsert key given combine =>
    match combine table[key]? given own with
    | (.ok value, own) => ⟨.ok (.stored value), table.insert key value, own, [.writes]⟩
    | (.error fault, own) => ⟨.error fault, table, own, []⟩

/-- A call that shares the lock leaves the table as it is. -/
theorem table_finish_of_shared {call : KeyCall S V} (h : call.access = .shared) (table : Table V)
    (own : S) : (call.finish table own).table = table := by
  cases call with
  | keyed call =>
    cases call with
    | get | has => rfl
    | _ => cases h
  | upsert => cases h

/-! ## The actions of a call -/

/-- A call is a question to the router, a request for one shard, and a rest that comes to what the
call comes to on the table. -/
structure Splits (call : KeyCall S V) (rest : Fin n → Process .single n S V (Answer V)) : Prop where
  process : call.call.program.process = (Process.perform (.route call.key)).bind fun i =>
    (Process.request i call.access).bind fun _ => rest i
  finish : ∀ i table own, (rest i).finish? i table own = some (call.finish table own)

theorem exists_splits (call : KeyCall S V) :
    ∃ rest : Fin n → Process .single n S V (Answer V), call.Splits rest := by
  cases call with
  | keyed call =>
    obtain ⟨rest, hprocess, hfinish⟩ := call.exists_rest (S := S) (n := n)
    refine ⟨fun i => (rest i ()).bind fun b => .done (call.tell b), ⟨?_, fun i table own => ?_⟩⟩
    · have hprogram : ((Call.keyed call).program : Program .single S V (Answer V)).process =
          (call.operation.process : Process .single n S V _).bind fun b => .done (call.tell b) := rfl
      rw [KeyCall.call, hprogram, hprocess, Process.bind_assoc]
      rfl
    · exact Process.finish?_bind_done (hfinish i table own) _
  | upsert key given combine =>
    refine ⟨_, rfl, fun i table own => ?_⟩
    rcases hcombine : combine table[key]? given own with ⟨result, own'⟩
    -- Both exits of the callback are followed to their ends.
    cases result <;>
      simp only [Process.bind_eq, Process.pure_eq, Process.underMark, Process.perform, Process.bind,
        Process.finish?, Action.shard?, Action.onTable?, if_true, Option.bind_some, Option.map_some,
        Program.modifyOwn, Program.ofExcept, Program.pure_eq, Program.bind_eq, Program.bind,
        Program.process, finish, hcombine] <;>
      rfl

/-! ## A call alone -/

/-- The callback of an upsert. -/
def combining {mode : Threading} (given : V) (combine : Option V → V → S → Except Fault V × S)
    (old : Option V) : Program mode S V (V × Unit) := do
  let combined ← Program.modifyOwn (combine old given)
  let value ← Program.ofExcept combined
  return (value, ())

/-- It changes nothing but the caller's variables. -/
theorem run_combining {mode : Threading} (given : V)
    (combine : Option V → V → S → Except Fault V × S) (old : Option V) (me : ThreadId)
    (store : Store σ V n) (own : S) :
    (combining given combine old : Program mode S V (V × Unit)).process.run me store own =
      match combine old given own with
      | (.ok value, own) => (.returned (value, ()), store, own)
      | (.error fault, own) => (.unwound fault, store, own) := by
  rcases hcombine : combine old given own with ⟨result, own'⟩
  cases result <;>
    simp only [combining, Program.bind_eq, Program.modifyOwn, Program.bind, Program.process,
      Process.run, hcombine, Program.ofExcept, Program.pure_eq]

/-- A shard whose lock a call was granted and that the call has left. -/
def leave (finish : Finish S V (Answer V)) (shard : Shard V) : Shard V :=
  { shard with
    table := finish.table
    tally := (shard.tally.bump .acquisitions).bumpAll finish.counts }

/-- Alone on a store at rest, a call leaves its shard as it says. -/
theorem run_program {store routed : Store σ V n} (hrest : store.AtRest) (call : KeyCall S V)
    {i : Fin n} (hroute : store.route call.key = (.ok i, routed)) (me : ThreadId) (own : S) :
    ∃ outcome, outcome.result? = some (call.finish (store.table i) own).result ∧
      (call.call.program : Program .single S V (Answer V)).run me store own =
        (outcome, routed.modify i (leave (call.finish (store.table i) own)),
          (call.finish (store.table i) own).own) := by
  have hshard (j : Fin n) : routed.shard j = store.shard j := by
    rw [Store.shard, ← congrArg (fun r => r.2.shards) hroute, Action.shards_route, Store.shard]
  have htable : store.table i = routed.table i := congrArg Shard.table (hshard i).symm
  have hrouted : routed.AtRest := fun j => by rw [hshard]; exact hrest j
  rw [htable]
  cases call with
  | keyed call =>
    obtain ⟨hmark, hlock⟩ := hrouted.admits me i call.access
    refine ⟨.returned (call.tell (call.answer (routed.table i))), rfl, ?_⟩
    rw [KeyCall.call, Call.program, Program.bind_eq, Program.run_bind, Program.run_ask,
      Process.run_keyed me call hroute hmark hlock]
    rw [routed.modify_congr (f := call.onShard)
      (g := leave (finish (routed.table i) own (.keyed call))) rfl]
    rfl
  | upsert key given combine =>
    have hadmits := hrouted.admits me i .exclusive
    have hclosed {table : Table V} : ((routed.shard i).opened me .exclusive |>.stored table).closed
        me .exclusive = ((routed.shard i).requested).stored table := by
      rw [← Shard.closed_opened hadmits.1 hadmits.2]
      rfl
    have hprogram : ((Call.upsert key given combine).program : Program .single S V (Answer V)) =
        (Program.updateWith key (combining given combine)).bind fun stored =>
          .done (.stored stored.1) := rfl
    rw [KeyCall.call, hprogram, Program.run_bind, Program.run_updateWith,
      Process.run_update (show store.route key = (.ok i, routed) from hroute) hadmits, run_combining,
      finish]
    rcases combine (routed.table i)[key]? given own with ⟨result, own'⟩
    cases result with
    | ok value =>
      refine ⟨.returned (.stored value), rfl, ?_⟩
      simp only [Store.modify_modify]
      rw [routed.modify_congr (g := fun shard =>
        shard.requested.stored ((routed.table i).insert key value)) hclosed]
      rfl
    | error fault =>
      refine ⟨.unwound fault, rfl, ?_⟩
      simp only [Store.modify_modify]
      rw [routed.modify_congr (Shard.closed_opened hadmits.1 hadmits.2)]
      rfl

/-- A call on a shard tells its caller what it comes to on the shard's table, and leaves that. -/
theorem run_answered {store routed : Store σ V n} (hrest : store.AtRest) (call : KeyCall S V)
    {i : Fin n} (hroute : store.route call.key = (.ok i, routed)) (me : ThreadId) (own : S) :
    (call.call.answered : Program .single S V (Answer V)).run me store own =
      (.returned (Answer.ofResult (call.finish (store.table i) own).result),
        routed.modify i (leave (call.finish (store.table i) own)),
        (call.finish (store.table i) own).own) := by
  obtain ⟨outcome, hresult, hrun⟩ := run_program hrest call hroute me own
  rw [Program.run] at hrun
  rw [Call.answered_eq, Program.run, Program.process, Process.run, hrun]
  cases outcome with
  | returned answer => rw [← Option.some.inj hresult]; rfl
  | unwound fault => rw [← Option.some.inj hresult]; rfl
  | blocked => cases hresult

/-- A call that the router gives up on tells the router's fault, and changes no shard. -/
theorem run_answered_of_error {store routed : Store σ V n} (call : KeyCall S V) {fault : Fault}
    (hroute : store.route call.key = (.error fault, routed)) (me : ThreadId) (own : S) :
    (call.call.answered : Program .single S V (Answer V)).run me store own =
      (.returned (.fault fault), routed, own) := by
  obtain ⟨rest, hsplits⟩ := call.exists_splits (n := n)
  rw [Call.answered_eq, Program.run, Program.process, Process.run, hsplits.process,
    Process.run_route_bind_error me hroute]
  rfl

end KeyCall

/-! ## Sessions -/

namespace Call

variable {S V : Type} {n : Nat}

/-- What is left of a thread's course that has been told some answers and is between two calls. -/
def courseAfter (told : List (Answer V)) (calls : List (KeyCall S V)) :
    Process .single n S V (List (Answer V)) :=
  ((session (calls.map KeyCall.call)).bind fun answers => .done (told ++ answers)).process

theorem courseAfter_nil (told : List (Answer V)) :
    (courseAfter told [] : Process .single n S V _) = .done (told ++ []) := rfl

/-- The next call is attempted, and its answer told. -/
theorem courseAfter_cons (told : List (Answer V)) (call : KeyCall S V) (calls : List (KeyCall S V)) :
    (courseAfter told (call :: calls) : Process .single n S V _) =
      .attempt none call.call.program.process fun result =>
        courseAfter (told ++ [Answer.ofResult result]) calls := by
  have hsession : (session ((call :: calls).map KeyCall.call) : Program .single S V _) =
      .attempt call.call.program fun result =>
        (session (calls.map KeyCall.call)).bind fun answers =>
          .done (Answer.ofResult result :: answers) := by
    rw [List.map_cons, session, List.mapM_cons, answered_eq]
    rfl
  rw [courseAfter, hsession, Program.bind, Program.process]
  congr 1
  funext result
  rw [courseAfter, Program.bind_assoc]
  simp only [Program.bind, List.append_assoc, List.singleton_append]

/-- A session starts with no answer told. -/
theorem process_session (calls : List (KeyCall S V)) :
    (session (calls.map KeyCall.call) : Program .single S V _).process =
      (courseAfter [] calls : Process .single n S V _) := by
  rw [courseAfter]
  simp only [List.nil_append]
  rw [show (fun answers : List (Answer V) => (Program.done answers : Program .single S V _)) =
    Program.done from rfl, Program.bind_done]

end Call

end ShardStore
