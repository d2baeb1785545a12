import ShardStore.Proofs.Threads.KeyCalls
import ShardStore.Proofs.Threads.Orderly

/-!
# Calls one after another

What several threads do together is judged by what they would have done one after another.
`InTurn` lists calls in some order, with the thread that makes each and with its answer, and runs
each one to its end before the next one starts.
-/

namespace ShardStore

/-- A call about one key: who made it, and what it was told. -/
structure Made (S V : Type) : Type 1 where
  thread : Nat
  call : KeyCall S V
  answer : Answer V

/-- The calls of one thread. -/
def madeBy {S V : Type} (t : Nat) (made : List (Made S V)) : List (Made S V) :=
  made.filter fun m => m.thread = t

theorem madeBy_concat_self {S V : Type} (t : Nat) (made : List (Made S V)) (call : KeyCall S V)
    (answer : Answer V) :
    madeBy t (made ++ [⟨t, call, answer⟩]) = madeBy t made ++ [⟨t, call, answer⟩] := by
  rw [madeBy, List.filter_append, List.filter_singleton, decide_eq_true rfl]
  rfl

theorem madeBy_concat_of_ne {S V : Type} {t u : Nat} (h : t ≠ u) (made : List (Made S V))
    (call : KeyCall S V) (answer : Answer V) :
    madeBy u (made ++ [⟨t, call, answer⟩]) = madeBy u made := by
  rw [madeBy, List.filter_append, List.filter_singleton, decide_eq_false h]
  exact List.append_nil _

/-- Calls made one after another, with the store and the threads' variables that they leave. -/
inductive InTurn {σ S V : Type} {n : Nat} (store : Store σ V n) (owns : List S) :
    List (Made S V) → Store σ V n → List S → Prop where
  | start : InTurn store owns [] store owns
  | call {made : List (Made S V)} {store' store'' : Store σ V n} {owns' : List S} {t : Nat}
      {call : KeyCall S V} {answer : Answer V} {own own' : S}
      (h : InTurn store owns made store' owns') (hown : owns'[t]? = some own)
      (hrun : (call.call.answered : Program .single S V (Answer V)).run (.root t) store' own =
        (.returned answer, store'', own')) :
      InTurn store owns (made ++ [⟨t, call, answer⟩]) store'' (owns'.set t own')

namespace InTurn

variable {σ S V : Type} {n : Nat} {store store' : Store σ V n} {owns owns' : List S}
  {made : List (Made S V)} {send : String → Except Fault (Fin n)}

/-- The same threads are there at the end. -/
theorem length_owns (h : InTurn store owns made store' owns') : owns'.length = owns.length := by
  induction h with
  | start => rfl
  | call _ _ _ ih => rw [List.length_set, ih]

/-- Calls are made by these threads. -/
theorem thread_lt (h : InTurn store owns made store' owns') {m : Made S V} (hmem : m ∈ made) :
    m.thread < owns.length := by
  induction h with
  | start => cases hmem
  | call h hown _ ih =>
    rcases List.mem_append.mp hmem with hmem | hmem
    · exact ih hmem
    · obtain rfl := List.mem_singleton.mp hmem
      obtain ⟨ht, -⟩ := List.getElem?_eq_some_iff.mp hown
      exact h.length_owns ▸ ht

/-- One more call on a shard. -/
theorem snoc (h : InTurn store owns made store' owns') (hrest : store'.AtRest)
    (hsends : store'.SendsBy send) {t : Nat} {own : S} (hown : owns'[t]? = some own)
    (call : KeyCall S V) {i : Fin n} (hsend : send call.key = .ok i) :
    let finish := call.finish (store'.table i) own
    ∃ store'', InTurn store owns (made ++ [⟨t, call, Answer.ofResult finish.result⟩]) store''
        (owns'.set t finish.own) ∧
      store''.AtRest ∧ store''.SendsBy send ∧
      store''.shard i = KeyCall.leave finish (store'.shard i) ∧
      ∀ j, j ≠ i → store''.shard j = store'.shard j := by
  intro finish
  obtain ⟨routing, hroute, hsends'⟩ := hsends.exists_route_eq call.key
  rw [hsend] at hroute
  refine ⟨_, h.call hown (KeyCall.run_answered hrest call hroute (.root t) own), fun j => ?_,
    hsends'.congr rfl rfl, Store.shard_modify_self .., fun j hj => ?_⟩
  · rw [Store.shard_modify]
    split
    · exact hrest j
    · exact hrest j
  · exact Store.shard_modify_ne _ (Ne.symm hj) _

/-- One more call on which the router gives up. -/
theorem snoc_of_error (h : InTurn store owns made store' owns') (hrest : store'.AtRest)
    (hsends : store'.SendsBy send) {t : Nat} {own : S} (hown : owns'[t]? = some own)
    (call : KeyCall S V) {fault : Fault} (hsend : send call.key = .error fault) :
    ∃ store'', InTurn store owns (made ++ [⟨t, call, .fault fault⟩]) store'' (owns'.set t own) ∧
      store''.AtRest ∧ store''.SendsBy send ∧ ∀ j, store''.shard j = store'.shard j := by
  obtain ⟨routing, hroute, hsends'⟩ := hsends.exists_route_eq call.key
  rw [hsend] at hroute
  exact ⟨_, h.call hown (KeyCall.run_answered_of_error call hroute (.root t) own), hrest, hsends',
    fun j => rfl⟩

end InTurn

end ShardStore
