import ShardStore.Proofs.Calls.Keyed
import ShardStore.Proofs.Markers

/-!
# Scopes of callbacks

An update and a visit of a shard have one thing in common: they open the shard for a callback, run
it, and close the shard however the callback ends. `run_update` and `run_visitShard` say in one
equation each what they come to, in terms of how the callback itself runs on the opened shard.
-/

namespace ShardStore

namespace Shard

variable {V : Type}

/-- A shard that counted one more request. -/
def requested (shard : Shard V) : Shard V :=
  { shard with tally.acquisitions := shard.tally.acquisitions + 1 }

/-- A shard whose lock a thread took to run a callback. -/
def opened (me : ThreadId) (access : Access) (shard : Shard V) : Shard V :=
  { shard with
    tally.acquisitions := shard.tally.acquisitions + 1
    lock := shard.lock.take me access
    markers := shard.markers.enter me }

/-- A shard whose callback is over and whose lock was given back. -/
def closed (me : ThreadId) (access : Access) (shard : Shard V) : Shard V :=
  { shard with
    lock := shard.lock.release me access
    markers := shard.markers.leave me }

/-- A shard that counted a write and has a new table. -/
def stored (table : Table V) (shard : Shard V) : Shard V :=
  { shard with table, tally.writes := shard.tally.writes + 1 }

/-- A callback that changes nothing leaves one counted request. -/
theorem closed_opened {me : ThreadId} {access : Access} {shard : Shard V}
    (hmark : me ∉ shard.markers) (hlock : shard.lock.grants access = true) :
    (shard.opened me access).closed me access = shard.requested := by
  simp only [opened, closed, requested, Lock.release_take hlock, Markers.leave_enter hmark]

end Shard

namespace Store

variable {σ V : Type} {n : Nat}

/-- A request of this thread for that shard is met at once. -/
def Admits (store : Store σ V n) (me : ThreadId) (i : Fin n) (access : Access) : Prop :=
  me ∉ (store.shard i).markers ∧ (store.shard i).lock.grants access = true

/-- A store at rest meets every request at once. -/
theorem AtRest.admits {store : Store σ V n} (h : store.AtRest) (me : ThreadId) (i : Fin n)
    (access : Access) : store.Admits me i access := by
  refine ⟨by rw [(h i).2]; exact List.not_mem_nil, ?_⟩
  rw [(h i).1]
  cases access <;> rfl

end Store

namespace Process

variable {σ S V α β : Type} {mode : Threading} {n : Nat} {store : Store σ V n} {me : ThreadId}

/-- A callback under a mark, and then the rest: the mark is gone afterwards, and after a fault the
lock as well. -/
theorem run_underMark_bind (me : ThreadId) (i : Fin n) (access : Access)
    (callback : Process mode n S V β) (rest : β → Process mode n S V α) (store : Store σ V n)
    (own : S) :
    ((underMark i access callback).bind rest).run me store own =
      match callback.run me
        (store.modify i fun shard => { shard with markers := shard.markers.enter me }) own with
      | (.returned b, store, own) =>
        (rest b).run me
          (store.modify i fun shard => { shard with markers := shard.markers.leave me }) own
      | (.unwound fault, store, own) =>
        (.unwound fault, store.modify i fun shard =>
          { shard with
            markers := shard.markers.leave me
            lock := shard.lock.release me access }, own)
      | (.blocked, store, own) => (.blocked, store, own) := by
  simp only [underMark, bind_eq, bind_assoc, run_perform_bind, Action.perform]
  rw [bind, run]
  split
  · next heq => simp only [heq, pure_eq, bind_assoc, bind, run_perform_bind, Action.perform]
  · next heq =>
    simp only [heq, bind_assoc, bind, run_perform_bind, Action.perform, run, Store.modify_modify]
  · next heq => simp only [heq]

/-- A granted request and the mark open a shard. -/
theorem modify_take_enter (store : Store σ V n) (me : ThreadId) (i : Fin n) (access : Access) :
    ((store.modify i fun shard => { shard with
      tally := shard.tally.bump .acquisitions
      lock := shard.lock.take me access }).modify i fun shard => { shard with
        markers := shard.markers.enter me }) = store.modify i (Shard.opened me access) :=
  store.modify_modify i _ _

/-! ## Visits -/

/-- Calls back for some entries of a shard, in order. -/
def visitEntries (callback : String → V → Process mode n S V β) (entries : List (String × V)) :
    Process mode n S V (List ((String × V) × β)) :=
  entries.mapM fun entry => do
    let b ← callback entry.1 entry.2
    return (entry, b)

/-- A visit of one shard runs its callbacks on the shard opened for them, on the entries that were
there, and closes the shard however they end. -/
theorem run_visitShard {i : Fin n} (h : store.Admits me i .shared)
    (callback : String → V → Process mode n S V β) (own : S) :
    (visitShard callback i).run me store own =
      match (visitEntries callback (store.table i).toList).run me
        (store.modify i (Shard.opened me .shared)) own with
      | (.returned visited, store, own) =>
        (.returned visited, store.modify i (Shard.closed me .shared), own)
      | (.unwound fault, store, own) =>
        (.unwound fault, store.modify i (Shard.closed me .shared), own)
      | (.blocked, store, own) => (.blocked, store, own) := by
  have hbody : (visitShard callback i : Process mode n S V _) =
      (request i .shared).bind fun _ => (perform (.load i)).bind fun table =>
        (underMark i .shared (visitEntries callback table.toList)).bind fun visited =>
          (perform (.release i .shared)).bind fun _ => .done visited := rfl
  rw [hbody, run_request_bind me h.1 h.2, run_perform_bind_of_returned me rfl,
    run_underMark_bind, modify_take_enter, Store.table_modify_self]
  rcases hrun : (visitEntries callback (store.table i).toList).run me
    (store.modify i (Shard.opened me .shared)) own with ⟨outcome, store', own'⟩
  rw [Store.table] at hrun
  cases outcome with
  | returned visited =>
    simp only [hrun]
    rw [run_perform_bind_of_returned me rfl, Store.modify_modify]
    rfl
  | unwound fault =>
    simp only [hrun]
    rfl
  | blocked => simp only [hrun]

/-! ## Updates -/

/-- An update runs its callback on the shard opened for it, with the value that was there. If the
callback returns, its value is stored and a write is counted; the shard is closed in any case. -/
theorem run_update {key : String} {i : Fin n} {store' : Store σ V n}
    (hroute : store.route key = (.ok i, store')) (h : store'.Admits me i .exclusive)
    (callback : Option V → Process mode n S V (V × β)) (own : S) :
    (update key callback).run me store own =
      match (callback (store'.table i)[key]?).run me
        (store'.modify i (Shard.opened me .exclusive)) own with
      | (.returned (value, b), store, own) =>
        (.returned (value, b), store.modify i fun shard =>
          ((shard.stored ((store'.table i).insert key value)).closed me .exclusive), own)
      | (.unwound fault, store, own) =>
        (.unwound fault, store.modify i (Shard.closed me .exclusive), own)
      | (.blocked, store, own) => (.blocked, store, own) := by
  have hbody : (update key callback : Process mode n S V (V × β)) =
      (perform (.route key)).bind fun i => (request i .exclusive).bind fun _ =>
        (perform (.load i)).bind fun table =>
          (underMark i .exclusive (callback table[key]?)).bind fun stored =>
            (perform (.put i (table.insert key stored.1))).bind fun _ =>
              (perform (.bump i .writes)).bind fun _ =>
                (perform (.release i .exclusive)).bind fun _ => .done stored := rfl
  rw [hbody, run_route_bind me hroute, run_request_bind me h.1 h.2,
    run_perform_bind_of_returned me rfl, run_underMark_bind, modify_take_enter,
    Store.table_modify_self]
  rcases hrun : (callback (store'.table i)[key]?).run me
    (store'.modify i (Shard.opened me .exclusive)) own with ⟨outcome, store₁, own₁⟩
  rw [Store.table] at hrun
  -- Only a callback that returns is followed by the store of its value.
  cases outcome with
  | returned stored =>
    simp only [hrun]
    rw [run_perform_bind_of_returned me rfl, run_perform_bind_of_returned me rfl,
      run_perform_bind_of_returned me rfl]
    simp only [Store.modify_modify]
    rfl
  | unwound fault =>
    simp only [hrun]
    rfl
  | blocked => simp only [hrun]

/-- An update of a shard whose callback this thread is running leaves only the router's state
changed. -/
theorem run_update_refused {key : String} {i : Fin n} {store' : Store σ V n}
    (hroute : store.route key = (.ok i, store')) (h : me ∈ (store'.shard i).markers)
    (callback : Option V → Process mode n S V (V × β)) (own : S) :
    (update key callback).run me store own = (.unwound .reentrant, store', own) := by
  rw [update, bind_eq, run_route_bind me hroute, bind_eq, run_request_bind_refused me h]

end Process

end ShardStore
