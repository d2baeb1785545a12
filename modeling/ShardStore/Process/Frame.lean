import ShardStore.Process

/-!
# What actions leave alone

An action touches at most one shard, and only `route` touches the routing. These frame facts are
what lets a statement about one shard ignore what happens to the others. The last section says in
one equation what a request for a shard comes to.
-/

namespace ShardStore

namespace Action

variable {σ V β : Type} {n : Nat}

/-- The shard that an action reads or changes. -/
def shard? : Action n V β → Option (Fin n)
  | .route _ => none
  | .check i => some i
  | .bump i _ => some i
  | .acquire i _ => some i
  | .release i _ => some i
  | .mark i => some i
  | .unmark i => some i
  | .load i => some i
  | .put i _ => some i
  | .counted i _ => some i

/-- A router call moves no shard. -/
theorem shards_route (store : Store σ V n) (key : String) :
    (store.route key).2.shards = store.shards := rfl

/-- Shards that an action is not about stay as they are. -/
theorem shard_perform (me : ThreadId) (action : Action n V β) (store : Store σ V n) {j : Fin n}
    (h : action.shard? ≠ some j) : (action.perform me store).2.shard j = store.shard j := by
  have away {i : Fin n} (hi : some i ≠ some j) (change : Shard V → Shard V) :
      (store.modify i change).shard j = store.shard j :=
    store.shard_modify_ne (fun hij => hi (congrArg some hij)) change
  cases action with
  | route key =>
    simp only [perform]
    split <;> next heq =>
      rw [Store.shard, ← congrArg (fun r => r.2.shards) heq, shards_route]
      rfl
  | check i => simp only [perform]; split <;> rfl
  | bump i counter => exact away h _
  | acquire i access =>
    simp only [perform]
    split
    · exact away h _
    · rfl
  | release i access => exact away h _
  | mark i => exact away h _
  | unmark i => exact away h _
  | load i => rfl
  | put i table => exact away h _
  | counted i counter => rfl

/-- No action changes how keys are hashed. -/
theorem hasher_perform (me : ThreadId) (action : Action n V β) (store : Store σ V n) :
    (action.perform me store).2.hasher = store.hasher := by
  cases action with
  | route key =>
    simp only [perform]
    split <;> next heq => rw [← congrArg (fun r => r.2.hasher) heq]; rfl
  | check i => simp only [perform]; split <;> rfl
  | acquire i access => simp only [perform]; split <;> rfl
  | _ => rfl

/-- Only a router call changes the routing. -/
theorem routing_perform (me : ThreadId) (action : Action n V β) (store : Store σ V n)
    (h : action.shard? ≠ none) : (action.perform me store).2.routing = store.routing := by
  cases action with
  | route key => exact absurd rfl h
  | check i => simp only [perform]; split <;> rfl
  | acquire i access => simp only [perform]; split <;> rfl
  | _ => rfl

end Action

namespace Process

variable {σ S V α β : Type} {mode : Threading} {n : Nat}

/-! ## Equations for running -/

/-- Running one action and then the rest. -/
theorem run_perform_bind (me : ThreadId) (action : Action n V β)
    (rest : β → Process mode n S V α) (store : Store σ V n) (own : S) :
    ((perform action).bind rest).run me store own =
      match action.perform me store with
      | (.returned b, store) => (rest b).run me store own
      | (.unwound fault, store) => (.unwound fault, store, own)
      | (.blocked, store) => (.blocked, store, own) := by
  simp only [perform, bind, run]
  split <;> next heq => simp only [heq]

/-- Entering a shard is counted, and then granted or waiting. -/
theorem run_enter (me : ThreadId) (i : Fin n) (access : Access) (store : Store σ V n) (own : S) :
    (enter i access : Process mode n S V Unit).run me store own =
      let counted := store.modify i fun shard =>
        { shard with tally := shard.tally.bump .acquisitions }
      if (store.shard i).lock.grants access then
        (.returned (), counted.modify i fun shard =>
          { shard with lock := shard.lock.take me access }, own)
      else (.blocked, counted, own) := by
  simp only [enter, bind_eq, run_perform_bind]
  rw [Action.perform]
  simp only [perform, run, Action.perform, Store.shard_modify_self]
  by_cases hg : (store.shard i).lock.grants access
  · simp only [hg, if_true]
  · simp only [hg, Bool.false_eq_true, if_false]

/-- What a request comes to: refused without a trace, counted and granted, or counted and
waiting. -/
theorem run_request (me : ThreadId) (i : Fin n) (access : Access) (store : Store σ V n)
    (own : S) :
    (request i access : Process mode n S V Unit).run me store own =
      if me ∈ (store.shard i).markers then (.unwound .reentrant, store, own)
      else
        let counted := store.modify i fun shard =>
          { shard with tally := shard.tally.bump .acquisitions }
        if (store.shard i).lock.grants access then
          (.returned (), counted.modify i fun shard =>
            { shard with lock := shard.lock.take me access }, own)
        else (.blocked, counted, own) := by
  simp only [request, bind_eq, run_perform_bind]
  by_cases hm : me ∈ (store.shard i).markers
  · simp only [Action.perform, hm, if_true]
  · simp only [Action.perform, hm, if_false]
    exact run_enter me i access store own

end Process

end ShardStore
