import ShardStore.Proofs.Calls.Scopes
import ShardStore.Proofs.Courses.Holds

/-!
# Inside open scopes

A store on which one thread is at work by itself, inside some scopes of its own: it holds the locks
of their shards and has marked them, and all other shards are at rest. Whatever program the thread
runs from there, it passes only through points at which its locks and marks are those of its
standing (`Store.Inside.reaches`), it never waits, and it ends inside the same scopes
(`Store.Inside.run`).
-/

namespace ShardStore

namespace Store

variable {σ V β : Type} {n : Nat} {store : Store σ V n} {me : ThreadId}
  {scopes : List (Fin n × Access)}

/-- One thread runs callbacks under the locks of some shards, innermost first, and nobody holds or
marks any other. -/
structure Inside (store : Store σ V n) (me : ThreadId) (scopes : List (Fin n × Access)) :
    Prop where
  /-- The scopes are those of different shards. -/
  apart : (scopes.map Prod.fst).Nodup
  /-- The shard of a scope is locked and marked for it. -/
  around : ∀ i access, (i, access) ∈ scopes →
    (store.shard i).lock = Lock.free.take me access ∧ (store.shard i).markers = [me]
  elsewhere : ∀ i, i ∉ scopes.map Prod.fst → (store.shard i).AtRest

/-- Nobody but this thread holds a lock or has left a mark. -/
def Alone (store : Store σ V n) (me : ThreadId) : Prop :=
  ∀ i, (∀ thread ∈ (store.shard i).lock.readers, thread = me) ∧
    (∀ thread, (store.shard i).lock.writer = some thread → thread = me) ∧
    ∀ thread ∈ (store.shard i).markers, thread = me

/-- Outside of all scopes, a store is at rest. -/
theorem inside_nil_iff : store.Inside me [] ↔ store.AtRest := by
  refine ⟨fun h i => h.elsewhere i List.not_mem_nil, fun h => ⟨List.nodup_nil, ?_, fun i _ => h i⟩⟩
  exact fun _ _ hmem => absurd hmem List.not_mem_nil

/-- A shard in no scope admits every request. -/
theorem Inside.admits (h : store.Inside me scopes) {i : Fin n} (hi : i ∉ scopes.map Prod.fst)
    (access : Access) : store.Admits me i access := by
  obtain ⟨hlock, hmarkers⟩ := h.elsewhere i hi
  refine ⟨by rw [hmarkers]; exact List.not_mem_nil, ?_⟩
  rw [hlock]
  cases access <;> rfl

/-- The shards of the scopes are marked. -/
theorem Inside.mem_markers (h : store.Inside me scopes) {i : Fin n}
    (hi : i ∈ scopes.map Prod.fst) : me ∈ (store.shard i).markers := by
  obtain ⟨⟨j, access⟩, hmem, rfl⟩ := List.mem_map.mp hi
  rw [(h.around j access hmem).2]
  exact List.mem_singleton_self me

/-- A shard is open in one way only. -/
theorem Inside.access_eq (h : store.Inside me scopes) {i : Fin n} {access access' : Access}
    (hmem : (i, access) ∈ scopes) (hmem' : (i, access') ∈ scopes) : access = access' :=
  (Prod.mk.inj (List.inj_on_of_nodup_map h.apart hmem hmem' rfl)).2

/-- Inside scopes, the locks and marks of the thread are those of the scopes. -/
theorem Inside.shows (h : store.Inside me scopes) : store.Shows me ⟨.idle, scopes⟩ := by
  have hnodup : scopes.Nodup := h.apart.of_map
  refine ⟨h.apart, fun _ hstage => (nomatch hstage), fun i => ?_, fun i => ?_, fun i => ?_⟩
  · -- The marks.
    change _ = (scopes.map Prod.fst).count i
    by_cases hi : i ∈ scopes.map Prod.fst
    · obtain ⟨⟨j, access⟩, hmem, rfl⟩ := List.mem_map.mp hi
      rw [(h.around j access hmem).2, List.count_eq_one_of_mem h.apart hi]
      exact List.count_singleton_self
    · rw [(h.elsewhere i hi).2, List.count_eq_zero_of_not_mem hi]
      rfl
  · -- The readers: at most one, as no two scopes are of one shard.
    change _ = scopes.count (i, .shared)
    by_cases hi : i ∈ scopes.map Prod.fst
    · obtain ⟨⟨j, access⟩, hmem, rfl⟩ := List.mem_map.mp hi
      rw [(h.around j access hmem).1]
      cases access with
      | shared =>
        rw [List.count_eq_one_of_mem hnodup hmem]
        exact List.count_singleton_self
      | exclusive =>
        have hnot : (j, Access.shared) ∉ scopes := fun hmem' => nomatch h.access_eq hmem hmem'
        exact (List.count_eq_zero_of_not_mem hnot).symm
    · have hnot : (i, Access.shared) ∉ scopes := fun hmem => hi (List.mem_map_of_mem hmem)
      rw [(h.elsewhere i hi).1]
      exact (List.count_eq_zero_of_not_mem hnot).symm
  · -- The writer.
    change _ ↔ (i, Access.exclusive) ∈ scopes
    by_cases hi : i ∈ scopes.map Prod.fst
    · obtain ⟨⟨j, access⟩, hmem, rfl⟩ := List.mem_map.mp hi
      rw [(h.around j access hmem).1]
      cases access with
      | shared => exact ⟨fun hw => (nomatch hw), fun hmem' => nomatch h.access_eq hmem hmem'⟩
      | exclusive => exact ⟨fun _ => hmem, fun _ => rfl⟩
    · rw [(h.elsewhere i hi).1]
      exact ⟨fun hw => (nomatch hw), fun hmem => (hi (List.mem_map_of_mem hmem)).elim⟩

/-- Inside scopes, nobody else is there. -/
theorem Inside.alone (h : store.Inside me scopes) : store.Alone me := by
  intro i
  by_cases hi : i ∈ scopes.map Prod.fst
  · obtain ⟨⟨j, access⟩, hmem, rfl⟩ := List.mem_map.mp hi
    obtain ⟨hlock, hmarkers⟩ := h.around j access hmem
    rw [hlock, hmarkers]
    cases access <;> simp [Lock.take, Lock.free]
  · obtain ⟨hlock, hmarkers⟩ := h.elsewhere i hi
    rw [hlock, hmarkers]
    simp [Lock.free]

/-- A thread that is alone on a store and whose locks and marks are those of open scopes is inside
these scopes. -/
theorem Shows.inside (h : store.Shows me ⟨.idle, scopes⟩) (halone : store.Alone me) :
    store.Inside me scopes := by
  -- A list of nothing but one thread is told by how often it lists that thread.
  have hlist {list : List ThreadId} (hall : ∀ thread ∈ list, thread = me) (count : Nat)
      (hcount : list.count me = count) : list = List.replicate count me := by
    refine List.eq_replicate_iff.mpr ⟨?_, hall⟩
    rw [← hcount]
    exact (List.count_eq_length.mpr fun thread hthread => (hall thread hthread).symm).symm
  have hnodup : scopes.Nodup := h.apart.of_map
  have hunique {i : Fin n} {access access' : Access} (hmem : (i, access) ∈ scopes)
      (hmem' : (i, access') ∈ scopes) : access = access' :=
    (Prod.mk.inj (List.inj_on_of_nodup_map h.apart hmem hmem' rfl)).2
  have hlock {i : Fin n} {lock : Lock ThreadId}
      (hreaders : (store.shard i).lock.readers = lock.readers)
      (hwriter : (store.shard i).lock.writer = lock.writer) : (store.shard i).lock = lock :=
    congrArg₂ Lock.mk hreaders hwriter
  have hnowriter {i : Fin n} (hnot : (i, Access.exclusive) ∉ scopes) :
      (store.shard i).lock.writer = none := by
    by_contra hsome
    obtain ⟨thread, hw⟩ := Option.ne_none_iff_exists'.mp hsome
    obtain rfl := (halone i).2.1 thread hw
    exact hnot ((h.writer i).mp hw)
  refine ⟨h.apart, fun i access hmem => ⟨?_, ?_⟩, fun i hi => ⟨?_, ?_⟩⟩
  · cases access with
    | shared =>
      refine hlock ?_ (hnowriter fun hmem' => nomatch hunique hmem hmem')
      exact hlist (halone i).1 1 ((h.readers i).trans (List.count_eq_one_of_mem hnodup hmem))
    | exclusive =>
      refine hlock ?_ ((h.writer i).mpr hmem)
      refine hlist (halone i).1 0 ((h.readers i).trans (List.count_eq_zero_of_not_mem ?_))
      exact fun hmem' => nomatch hunique hmem hmem'
  · refine hlist (halone i).2.2 1 ((h.marks i).trans ?_)
    exact List.count_eq_one_of_mem h.apart (List.mem_map_of_mem hmem)
  · refine hlock ?_ (hnowriter fun hmem => hi (List.mem_map_of_mem hmem))
    refine hlist (halone i).1 0 ((h.readers i).trans (List.count_eq_zero_of_not_mem ?_))
    exact fun hmem => hi (List.mem_map_of_mem hmem)
  · exact hlist (halone i).2.2 0 ((h.marks i).trans (List.count_eq_zero_of_not_mem hi))

/-! ## Actions -/

/-- An action of the only thread leaves it the only one. -/
theorem Alone.perform (h : store.Alone me) (action : Action n V β) :
    (action.perform me store).2.Alone me := by
  intro j
  by_cases hj : action.shard? = some j
  · -- Holders and marks are added in this thread's name only.
    obtain ⟨hreaders, hwriter, hmarkers⟩ := h j
    cases action with
    | route key => cases hj
    | check i =>
      rw [Action.perform]
      split <;> exact h j
    | acquire i access =>
      obtain rfl : i = j := Option.some.inj hj
      rw [Action.perform]
      split
      · rw [shard_modify_self]
        refine ⟨?_, ?_, hmarkers⟩
        · cases access with
          | shared => exact List.forall_mem_cons.mpr ⟨rfl, hreaders⟩
          | exclusive => exact hreaders
        · cases access with
          | shared => exact hwriter
          | exclusive => exact fun thread hw => (Option.some.inj hw).symm
      · exact h i
    | release i access =>
      obtain rfl : i = j := Option.some.inj hj
      rw [Action.perform, shard_modify_self]
      refine ⟨?_, ?_, hmarkers⟩
      · cases access with
        | shared => exact fun thread hthread => hreaders thread (List.mem_of_mem_erase hthread)
        | exclusive => exact hreaders
      · cases access with
        | shared => exact hwriter
        | exclusive => exact fun thread hw => absurd hw.symm (Option.some_ne_none thread)
    | mark i =>
      obtain rfl : i = j := Option.some.inj hj
      rw [Action.perform, shard_modify_self]
      refine ⟨hreaders, hwriter, List.forall_mem_append.mpr ⟨hmarkers, ?_⟩⟩
      exact List.forall_mem_singleton.mpr rfl
    | unmark i =>
      obtain rfl : i = j := Option.some.inj hj
      rw [Action.perform, shard_modify_self]
      exact ⟨hreaders, hwriter, fun thread hthread =>
        hmarkers thread (Markers.mem_of_mem_leave hthread)⟩
    | bump i counter =>
      obtain rfl : i = j := Option.some.inj hj
      rw [Action.perform, shard_modify_self]
      exact h i
    | put i table =>
      obtain rfl : i = j := Option.some.inj hj
      rw [Action.perform, shard_modify_self]
      exact h i
    | load i => exact h j
    | counted i counter => exact h j
  · rw [Action.shard_perform me action store hj]
    exact h j

/-! ## Entering and leaving a scope -/

variable {i : Fin n} {access : Access}

/-- Opening a shard for a callback opens a scope. -/
theorem Inside.opened (h : store.Inside me scopes) (hi : i ∉ scopes.map Prod.fst) :
    (store.modify i (Shard.opened me access)).Inside me ((i, access) :: scopes) := by
  have hne {j : Fin n} (hj : j ∈ scopes.map Prod.fst) : i ≠ j := fun hij => hi (hij ▸ hj)
  refine ⟨List.nodup_cons.mpr ⟨hi, h.apart⟩, fun j access' hmem => ?_, fun j hj => ?_⟩
  · rcases List.mem_cons.mp hmem with heq | hmem
    · obtain ⟨rfl, rfl⟩ := Prod.mk.inj heq
      obtain ⟨hlock, hmarkers⟩ := h.elsewhere j hi
      rw [shard_modify_self, Shard.opened, hlock, hmarkers]
      exact ⟨rfl, rfl⟩
    · rw [shard_modify_ne store (hne (List.mem_map_of_mem hmem))]
      exact h.around j access' hmem
  · obtain ⟨hji, hj⟩ := not_or.mp fun hor => hj (List.mem_cons.mpr hor)
    rw [shard_modify_ne store (Ne.symm hji)]
    exact h.elsewhere j hj

/-- Asking the router does not lead out of the scopes. -/
theorem Inside.route (h : store.Inside me scopes) {key : String} {result : Except Fault (Fin n)}
    {store' : Store σ V n} (hroute : store.route key = (result, store')) :
    store'.Inside me scopes ∧ ∀ j, store'.shard j = store.shard j := by
  have hshard (j : Fin n) : store'.shard j = store.shard j := by
    rw [shard, ← congrArg (fun r => r.2.shards) hroute, Action.shards_route, shard]
  refine ⟨⟨h.apart, fun j access hmem => ?_, fun j hj => ?_⟩, hshard⟩
  · rw [hshard]
    exact h.around j access hmem
  · rw [hshard]
    exact h.elsewhere j hj

/-- Closing a shard closes its scope. -/
theorem Inside.closed (h : store.Inside me ((i, access) :: scopes)) :
    (store.modify i (Shard.closed me access)).Inside me scopes ∧
      ((store.modify i (Shard.closed me access)).shard i).AtRest := by
  obtain ⟨hi, hapart⟩ : i ∉ scopes.map Prod.fst ∧ (scopes.map Prod.fst).Nodup :=
    List.nodup_cons.mp h.apart
  obtain ⟨hlock, hmarkers⟩ := h.around i access List.mem_cons_self
  have hrest : (Shard.closed me access (store.shard i)).AtRest := by
    refine ⟨?_, ?_⟩
    · rw [Shard.closed, hlock]
      exact Lock.release_take (by cases access <;> rfl) me
    · rw [Shard.closed, hmarkers]
      exact Markers.leave_enter List.not_mem_nil
  refine ⟨⟨hapart, fun j access' hmem => ?_, fun j hj => ?_⟩, ?_⟩
  · have hj : j ∈ scopes.map Prod.fst := List.mem_map_of_mem hmem
    have hij : i ≠ j := fun hij => hi (hij ▸ hj)
    rw [shard_modify_ne store hij]
    exact h.around j access' (List.mem_cons_of_mem _ hmem)
  · by_cases hij : i = j
    · subst hij
      rw [shard_modify_self]
      exact hrest
    · rw [shard_modify_ne store hij]
      refine h.elsewhere j fun hmem => ?_
      rcases List.mem_cons.mp hmem with hji | hmem
      · exact hij hji.symm
      · exact hj hmem
  · rw [shard_modify_self]
    exact hrest

end Store

/-! ## Whole courses -/

namespace Process

variable {σ S V α β : Type} {n : Nat} {me : ThreadId} {store store' : Store σ V n} {own own' : S}
  {scopes : List (Fin n × Access)} {p p' : Process .single n S V α} {standing final : Standing n}

/-- One step of the only thread leaves it the only one. -/
theorem alone_of_step? (h : store.Alone me)
    (hstep : p.step? me store own = some (p', store', own')) : store'.Alone me := by
  obtain rfl | ⟨β, action, -, rfl⟩ := store_of_step? hstep
  · exact h
  · exact h.perform action

/-- One step of a course that keeps to the order leaves alone the shards with open scopes around
it. -/
theorem Keeps.shard_of_step? (h : p.Keeps standing final)
    (hshows : store.Shows me (standing.under scopes))
    (hstep : p.step? me store own = some (p', store', own')) {j : Fin n}
    (hj : j ∈ scopes.map Prod.fst) : store'.shard j = store.shard j := by
  obtain rfl | ⟨β, action, hupcoming, rfl⟩ := store_of_step? hstep
  · rfl
  · obtain ⟨inner, inner', outer, rfl, hallows⟩ := h.exists_allows hupcoming
    rw [Standing.under_under] at hshows
    refine hallows.shard_perform hshows ?_
    rw [List.map_append]
    exact List.mem_append_right _ hj

/-- What is so at every point of a course that started inside some scopes: where it is, that its
thread is alone, and that the shards of these scopes are as they were. -/
theorem Keeps.reaches_inside (h : p.Keeps .idle .idle) (hinside : store.Inside me scopes)
    (hreaches : Reaches me p store own p' store' own') :
    ∃ standing, p'.Keeps standing .idle ∧ store'.Shows me (standing.under scopes) ∧
      store'.Alone me ∧ ∀ i ∈ scopes.map Prod.fst, store'.shard i = store.shard i := by
  induction hreaches with
  | refl => exact ⟨.idle, h, hinside.shows, hinside.alone, fun i _ => rfl⟩
  | step _ hstep ih =>
    obtain ⟨standing, hkeeps, hshows, halone, hsame⟩ := ih
    obtain ⟨standing', hkeeps', hshows'⟩ := hkeeps.step? hshows hstep
    refine ⟨standing', hkeeps', hshows', alone_of_step? halone hstep, fun i hi => ?_⟩
    exact (hkeeps.shard_of_step? hshows hstep hi).trans (hsame i hi)

/-- A thread asks for a lock only where it holds none; if it is alone, it is granted at once. -/
theorem Keeps.grants (h : p.Keeps standing final) (hshows : store.Shows me (standing.under scopes))
    (halone : store.Alone me) {i : Fin n} {access : Access}
    (hupcoming : p.upcoming? = some ⟨Unit, .acquire i access⟩) :
    ¬(store.shard i).lock.HeldBy me ∧ (store.shard i).lock.grants access = true := by
  obtain ⟨inner, inner', outer, rfl, hallows⟩ := h.exists_allows hupcoming
  obtain ⟨found, hi, rfl⟩ := hallows.eq_cleared_of_asksFor? rfl
  rw [Standing.under_under] at hshows
  have hfree : ¬(store.shard i).lock.HeldBy me := by
    rw [hshows.heldBy_iff]
    exact hshows.cleared i hi
  refine ⟨hfree, ?_⟩
  -- Whoever holds the lock would be this thread.
  have hreaders : (store.shard i).lock.readers = [] := by
    refine List.eq_nil_iff_forall_not_mem.mpr fun thread hthread => hfree (.inl ?_)
    exact (halone i).1 thread hthread ▸ hthread
  have hwriter : (store.shard i).lock.writer = none := by
    refine Option.eq_none_iff_forall_ne_some.mpr fun thread hw => hfree (.inr ?_)
    rw [hw, (halone i).2.1 thread hw]
  cases access with
  | shared => rw [Lock.grants, hwriter]; rfl
  | exclusive => rw [Lock.grants, hwriter, hreaders]; rfl

/-- Inside some scopes, a course that keeps to the order does not wait, ends inside the same
scopes, and leaves their shards as they were. -/
theorem Keeps.run_inside (h : p.Keeps .idle .idle) (hinside : store.Inside me scopes) (own : S) :
    (p.run me store own).1 ≠ .blocked ∧ (p.run me store own).2.1.Inside me scopes ∧
      ∀ i ∈ scopes.map Prod.fst, (p.run me store own).2.1.shard i = store.shard i := by
  obtain ⟨p', hreaches, hends⟩ := exists_reaches_run me p store own
  obtain ⟨standing, hkeeps, hshows, halone, hsame⟩ := h.reaches_inside hinside hreaches
  -- Either way out, nothing is held any more besides the scopes.
  have hfree : (p.run me store own).1 ≠ .blocked → standing.holds = [] := by
    intro hended
    rcases hrun : (p.run me store own).1 with value | fault | _
    · rw [hrun] at hends
      obtain rfl : p' = .done value := hends
      exact hkeeps.holds_of_ended rfl
    · rw [hrun] at hends
      obtain rfl : p' = .unwind fault := hends
      exact hkeeps
    · exact absurd hrun hended
  have hnot : (p.run me store own).1 ≠ .blocked := by
    intro hblocked
    rw [hblocked] at hends
    obtain ⟨i, access, hupcoming, hgrants⟩ := exists_acquire_of_step?_eq_none hends.1 hends.2
    rw [(hkeeps.grants hshows halone hupcoming).2] at hgrants
    cases hgrants
  exact ⟨hnot, (hshows.rest (hfree hnot)).inside halone, hsame⟩

end Process

end ShardStore
