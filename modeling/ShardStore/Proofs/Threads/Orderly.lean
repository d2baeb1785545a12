import Mathlib.Logic.Function.Basic
import ShardStore.Proofs.Courses.Inside

/-!
# Several threads that keep to the order

What one thread does to locks and marks does not show in those of another: a shared hold is added
beside the others, an exclusive one only where there is none, and a thread gives back only what it
holds. So while threads act in turns, the locks and marks of each one stay those of its own standing
(`Threads.Orderly`), and every lock that is held is held by one of them.
-/

namespace ShardStore

/-- The thread that stands at a place of a list of threads. -/
def ThreadId.root (t : Nat) : ThreadId :=
  { origin := t }

theorem ThreadId.root_inj {t u : Nat} : root t = root u ↔ t = u :=
  ⟨fun h => congrArg origin h, fun h => congrArg root h⟩

/-- A thread holds the lock of a shard or has marked the shard. -/
def Shard.Involves {V : Type} (shard : Shard V) (thread : ThreadId) : Prop :=
  shard.lock.HeldBy thread ∨ thread ∈ shard.markers

namespace Store.Shows

variable {σ V : Type} {n : Nat} {store : Store σ V n} {other : ThreadId} {standing : Standing n}

/-- A change of one shard's lock and marks in which a thread has no part. -/
theorem modify_other (h : store.Shows other standing) (i : Fin n) {change : Shard V → Shard V}
    (hmarks : (change (store.shard i)).markers.count other = (store.shard i).markers.count other)
    (hreaders : (change (store.shard i)).lock.readers.count other =
      (store.shard i).lock.readers.count other)
    (hwriter : (change (store.shard i)).lock.writer = some other ↔
      (store.shard i).lock.writer = some other) :
    (store.modify i change).Shows other standing where
  apart := h.apart
  cleared := h.cleared
  marks j := by
    rw [Store.shard_modify]
    split
    · next hij => subst hij; exact hmarks.trans (h.marks i)
    · exact h.marks j
  readers j := by
    rw [Store.shard_modify]
    split
    · next hij => subst hij; exact hreaders.trans (h.readers i)
    · exact h.readers j
  writer j := by
    rw [Store.shard_modify]
    split
    · next hij => subst hij; exact hwriter.trans (h.writer i)
    · exact h.writer j

end Store.Shows

namespace Action

variable {σ V β : Type} {n : Nat} {me : ThreadId} {store : Store σ V n}

/-- Locks stay consistent. -/
theorem consistent_perform (action : Action n V β)
    (h : ∀ i, (store.shard i).lock.Consistent) (i : Fin n) :
    ((action.perform me store).2.shard i).lock.Consistent := by
  by_cases hi : action.shard? = some i
  · cases action with
    | route key => cases hi
    | check j => rw [perform]; split <;> exact h i
    | acquire j access =>
      obtain rfl : j = i := Option.some.inj hi
      rw [perform]
      split
      · next hgrants =>
        rw [Store.shard_modify_self]
        exact Lock.consistent_take hgrants me
      · exact h j
    | release j access =>
      obtain rfl : j = i := Option.some.inj hi
      rw [perform, Store.shard_modify_self]
      exact Lock.consistent_release (h j) me access
    | load j => exact h i
    | counted j counter => exact h i
    | _ j =>
      obtain rfl : j = i := Option.some.inj hi
      rw [perform, Store.shard_modify_self]
      exact h j
  · rw [shard_perform me action store hi]
    exact h i

/-- Who is involved with a shard after an action was so before, or is the acting thread. -/
theorem involves_of_perform (action : Action n V β) {i : Fin n} {thread : ThreadId}
    (h : ((action.perform me store).2.shard i).Involves thread) :
    (store.shard i).Involves thread ∨ thread = me := by
  by_cases hi : action.shard? = some i
  · cases action with
    | route key => cases hi
    | check j =>
      rw [perform] at h
      split at h <;> exact .inl h
    | acquire j access =>
      obtain rfl : j = i := Option.some.inj hi
      rw [perform] at h
      split at h
      · rw [Store.shard_modify_self] at h
        rcases h with (hreader | hwriter) | hmark
        · cases access with
          | shared =>
            rcases List.mem_cons.mp hreader with heq | hreader
            · exact .inr heq
            · exact .inl (.inl (.inl hreader))
          | exclusive => exact .inl (.inl (.inl hreader))
        · cases access with
          | shared => exact .inl (.inl (.inr hwriter))
          | exclusive => exact .inr (Option.some.inj hwriter).symm
        · exact .inl (.inr hmark)
      · exact .inl h
    | release j access =>
      obtain rfl : j = i := Option.some.inj hi
      rw [perform, Store.shard_modify_self] at h
      rcases h with (hreader | hwriter) | hmark
      · cases access with
        | shared => exact .inl (.inl (.inl (List.mem_of_mem_erase hreader)))
        | exclusive => exact .inl (.inl (.inl hreader))
      · cases access with
        | shared => exact .inl (.inl (.inr hwriter))
        | exclusive => cases hwriter
      · exact .inl (.inr hmark)
    | mark j =>
      obtain rfl : j = i := Option.some.inj hi
      rw [perform, Store.shard_modify_self] at h
      rcases h with hheld | hmark
      · exact .inl (.inl hheld)
      · rcases List.mem_append.mp hmark with hmark | hmark
        · exact .inl (.inr hmark)
        · exact .inr (List.mem_singleton.mp hmark)
    | unmark j =>
      obtain rfl : j = i := Option.some.inj hi
      rw [perform, Store.shard_modify_self] at h
      rcases h with hheld | hmark
      · exact .inl (.inl hheld)
      · exact .inl (.inr (Markers.mem_of_mem_leave hmark))
    | bump j counter =>
      obtain rfl : j = i := Option.some.inj hi
      rw [perform, Store.shard_modify_self] at h
      exact .inl h
    | put j table =>
      obtain rfl : j = i := Option.some.inj hi
      rw [perform, Store.shard_modify_self] at h
      exact .inl h
    | load j => exact .inl h
    | counted j counter => exact .inl h
  · rw [shard_perform me action store hi] at h
    exact .inl h

end Action

/-! ## Standings of other threads -/

/-- An action that is allowed to one thread leaves the locks and marks of another alone. -/
theorem Standing.Allows.shows_other {σ V β : Type} {n : Nat} {store : Store σ V n}
    {me other : ThreadId} {scopes : List (Fin n × Access)} {standing standing' standing₁ : Standing n}
    {action : Action n V β} (hallows : standing.Allows action standing')
    (h : store.Shows me (standing.under scopes)) (hother : store.Shows other standing₁)
    (hne : other ≠ me) : (action.perform me store).2.Shows other standing₁ := by
  cases hallows with
  | route hfree key =>
    have hshard (i : Fin n) := Action.shard_perform me (.route key) store (j := i) nofun
    exact hother.congr (fun i => by rw [hshard]) (fun i => by rw [hshard])
  | check _ _ i => rw [Action.perform]; split <;> exact hother
  | counted hfree i counter => exact hother
  | bumpCleared i _ counter => exact hother.modify i (fun _ => rfl) fun _ => rfl
  | acquire i _ access =>
    rw [Action.perform]
    split
    · next hgrants =>
      have hnowriter := Lock.writer_eq_none_of_grants hgrants
      refine hother.modify_other i rfl ?_ ?_
      · cases access with
        | shared => exact List.count_cons_of_ne (Ne.symm hne)
        | exclusive => rfl
      · cases access with
        | shared => rfl
        | exclusive => simp [Lock.take, hnowriter, Ne.symm hne]
    · exact hother
  | bumpHolding i access _ counter => exact hother.modify i (fun _ => rfl) fun _ => rfl
  | load i access _ => exact hother
  | put i _ table => exact hother.modify i (fun _ => rfl) fun _ => rfl
  | mark i access _ =>
    refine hother.modify_other i ?_ rfl Iff.rfl
    simp [Markers.enter, Ne.symm hne]
  | unmark i access =>
    refine hother.modify_other i ?_ rfl Iff.rfl
    exact ((Markers.leave_perm _ me).count_eq other).trans (List.count_erase_of_ne hne)
  | release i access _ =>
    refine hother.modify_other i rfl ?_ ?_
    · cases access with
      | shared => exact List.count_erase_of_ne hne
      | exclusive => rfl
    · cases access with
      | shared => rfl
      | exclusive =>
        -- The writer was the acting thread.
        have hwriter : (store.shard i).lock.writer = some me := (h.writer i).mpr List.mem_cons_self
        simp [Lock.release, hwriter, Ne.symm hne]

/-- So does a step of a course that keeps to the order. -/
theorem Process.Keeps.shows_other_of_step? {σ S V α : Type} {n : Nat} {me other : ThreadId}
    {store store' : Store σ V n} {own own' : S} {scopes : List (Fin n × Access)}
    {p p' : Process .single n S V α} {standing final standing₁ : Standing n}
    (h : p.Keeps standing final) (hshows : store.Shows me (standing.under scopes))
    (hstep : p.step? me store own = some (p', store', own')) (hother : store.Shows other standing₁)
    (hne : other ≠ me) : store'.Shows other standing₁ := by
  obtain rfl | ⟨β, action, hupcoming, rfl⟩ := store_of_step? hstep
  · exact hother
  · obtain ⟨inner, inner', outer, rfl, hallows⟩ := h.exists_allows hupcoming
    rw [Standing.under_under] at hshows
    exact hallows.shows_other hshows hother hne

/-- A thread that has ended holds nothing. -/
theorem Process.Keeps.holds_of_ended? {S V α : Type} {n : Nat}
    {p : Process .single n S V α} {standing : Standing n}
    (h : p.Keeps standing .idle) {result : Except Fault α} (hended : p.ended? = some result) :
    standing.holds = [] := by
  obtain ⟨value, -, rfl⟩ | ⟨fault, -, rfl⟩ := eq_of_ended? hended
  · obtain rfl | ⟨hnothing, -⟩ := h
    · rfl
    · exact hnothing
  · exact h

/-! ## Threads in turns -/

namespace Threads

variable {σ S V α : Type} {n : Nat}

/-- What a step of thread `t` is. -/
theorem exists_of_step? {mode : Threading} {threads threads' : Threads mode σ S V α n} {t : Nat}
    (h : threads.step? t = some threads') :
    ∃ own course own' course' store', threads.courses[t]? = some (own, course) ∧
      course.step? (.root t) threads.store own = some (course', store', own') ∧
      threads' = { store := store', courses := threads.courses.set t (own', course') } := by
  unfold step? at h
  split at h
  · cases h
  · next own course hcourse =>
    obtain ⟨⟨course', store', own'⟩, hstep, heq⟩ := Option.map_eq_some_iff.mp h
    exact ⟨own, course, own', course', store', hcourse, hstep, heq.symm⟩

/-- Each thread keeps to the order and is where `standing` says; nobody else holds a lock or has
left a mark. -/
structure Orderly (threads : Threads .single σ S V α n) (standing : Nat → Standing n) : Prop where
  keeps : ∀ {t : Nat} {own : S} {course : Process .single n S V α},
    threads.courses[t]? = some (own, course) → course.Keeps (standing t) .idle
  shows : ∀ {t : Nat}, t < threads.courses.length → threads.store.Shows (.root t) (standing t)
  listed : ∀ {i : Fin n} {thread : ThreadId}, (threads.store.shard i).Involves thread →
    ∃ t < threads.courses.length, thread = .root t
  consistent : ∀ i, (threads.store.shard i).lock.Consistent

/-- Threads start outside of all scopes. -/
theorem orderly_ofPrograms {store : Store σ V n} (hrest : store.AtRest)
    (programs : List (S × Program .single S V α)) :
    (ofPrograms store programs).Orderly fun _ => .idle where
  keeps hcourse := by
    simp only [ofPrograms, List.getElem?_map, Option.map_eq_some_iff] at hcourse
    obtain ⟨⟨own, program⟩, -, heq⟩ := hcourse
    cases heq
    exact program.keeps_process
  shows _ := (Store.inside_nil_iff.mpr hrest).shows
  listed {i thread} h := by
    obtain ⟨hlock, hmarkers⟩ := hrest i
    rw [Shard.Involves, Lock.HeldBy, show (ofPrograms store programs).store = store from rfl, hlock,
      hmarkers] at h
    rcases h with (h | h) | h <;> cases h
  consistent i := by
    rw [show (ofPrograms store programs).store = store from rfl, (hrest i).1]
    exact Lock.consistent_free

/-- **A step takes its thread to another standing**, and leaves all others where they are. -/
theorem Orderly.step {threads threads' : Threads .single σ S V α n} {standing : Nat → Standing n}
    (h : threads.Orderly standing) {t : Nat} (hstep : threads.step? t = some threads') :
    ∃ at', threads'.Orderly (Function.update standing t at') := by
  obtain ⟨own, course, own', course', store', hcourse, hmoved, rfl⟩ := exists_of_step? hstep
  obtain ⟨ht, -⟩ := List.getElem?_eq_some_iff.mp hcourse
  have hshows : threads.store.Shows (.root t) ((standing t).under []) := by
    rw [Standing.under_nil]
    exact h.shows ht
  obtain ⟨at', hkeeps', hshows'⟩ := (h.keeps hcourse).step? hshows hmoved
  rw [Standing.under_nil] at hshows'
  refine ⟨at', ⟨fun {u own₁ course₁} hcourse₁ => ?_, fun {u} hu => ?_, fun {i thread} hinvolves => ?_,
    fun i => ?_⟩⟩
  · by_cases hut : u = t
    · subst hut
      rw [List.getElem?_set_self ht] at hcourse₁
      cases hcourse₁
      rw [Function.update_self]
      exact hkeeps'
    · rw [List.getElem?_set_ne (Ne.symm hut)] at hcourse₁
      rw [Function.update_of_ne hut]
      exact h.keeps hcourse₁
  · rw [List.length_set] at hu
    by_cases hut : u = t
    · subst hut
      rw [Function.update_self]
      exact hshows'
    · rw [Function.update_of_ne hut]
      exact (h.keeps hcourse).shows_other_of_step? hshows hmoved (h.shows hu)
        fun heq => hut (ThreadId.root_inj.mp heq)
  · rw [List.length_set]
    obtain rfl | ⟨β, action, -, rfl⟩ := Process.store_of_step? hmoved
    · exact h.listed hinvolves
    · rcases action.involves_of_perform hinvolves with hbefore | rfl
      · exact h.listed hbefore
      · exact ⟨t, ht, rfl⟩
  · obtain rfl | ⟨β, action, -, rfl⟩ := Process.store_of_step? hmoved
    · exact h.consistent i
    · exact action.consistent_perform h.consistent i

/-- So threads stay orderly, however they are interleaved. -/
theorem Orderly.exists_of_reaches {threads threads' : Threads .single σ S V α n}
    {standing : Nat → Standing n} (h : threads.Orderly standing)
    (hreaches : threads.Reaches threads') : ∃ standing', threads'.Orderly standing' := by
  induction hreaches with
  | refl => exact ⟨standing, h⟩
  | step t _ hstep ih =>
    obtain ⟨standing', horderly⟩ := ih
    obtain ⟨at', horderly'⟩ := horderly.step hstep
    exact ⟨_, horderly'⟩

/-- A thread that holds nothing holds no lock. -/
theorem Orderly.not_heldBy {threads : Threads .single σ S V α n} {standing : Nat → Standing n}
    (h : threads.Orderly standing) {t : Nat} {own : S} {course : Process .single n S V α}
    (hcourse : threads.courses[t]? = some (own, course)) (hnothing : (standing t).holds = [])
    (i : Fin n) : ¬(threads.store.shard i).lock.HeldBy (.root t) := by
  obtain ⟨ht, -⟩ := List.getElem?_eq_some_iff.mp hcourse
  rw [(h.shows ht).heldBy_iff, hnothing]
  exact List.not_mem_nil

/-- A thread that holds a lock alone shares it with nobody. -/
theorem Orderly.eq_of_heldBy {threads : Threads .single σ S V α n} {standing : Nat → Standing n}
    (h : threads.Orderly standing) {i : Fin n} {thread other : ThreadId}
    (hwriter : (threads.store.shard i).lock.writer = some thread)
    (hheld : (threads.store.shard i).lock.HeldBy other) : other = thread := by
  rcases hheld with hreader | hwriter'
  · have hnone := h.consistent i fun hnone => nomatch hnone.symm.trans hwriter
    rw [hnone] at hreader
    cases hreader
  · exact Option.some.inj (hwriter'.symm.trans hwriter)

/-- The locks that a thread holds are told by where it stands. -/
theorem Orderly.lock_iff_of_eq {threads threads' : Threads .single σ S V α n}
    {standing standing' : Nat → Standing n} (h : threads.Orderly standing)
    (h' : threads'.Orderly standing') {u : Nat} (hu : u < threads.courses.length)
    (hu' : u < threads'.courses.length) (heq : standing' u = standing u) (i : Fin n) :
    ((threads'.store.shard i).lock.HeldBy (.root u) ↔ (threads.store.shard i).lock.HeldBy (.root u)) ∧
      ((threads'.store.shard i).lock.writer = some (.root u) ↔
        (threads.store.shard i).lock.writer = some (.root u)) := by
  have hshows := h'.shows hu'
  rw [heq] at hshows
  exact ⟨(hshows.heldBy_iff i).trans ((h.shows hu).heldBy_iff i).symm,
    (hshows.writer i).trans ((h.shows hu).writer i).symm⟩

/-- Where all threads have ended, no lock is held and no mark is left. -/
theorem Orderly.atRest_of_ended {threads : Threads .single σ S V α n}
    {standing : Nat → Standing n} (h : threads.Orderly standing) (hended : threads.Ended) :
    threads.store.AtRest := by
  have hnobody (i : Fin n) (thread : ThreadId) : ¬(threads.store.shard i).Involves thread := by
    intro hinvolves
    obtain ⟨t, ht, rfl⟩ := h.listed hinvolves
    obtain ⟨⟨own, course⟩, hcourse⟩ : ∃ course, threads.courses[t]? = some course :=
      ⟨_, List.getElem?_eq_getElem ht⟩
    obtain ⟨result, hresult⟩ := Option.isSome_iff_exists.mp (hended _ (List.mem_of_getElem? hcourse))
    have hnothing := (h.keeps hcourse).holds_of_ended? hresult
    rcases hinvolves with hheld | hmark
    · rw [(h.shows ht).heldBy_iff, hnothing] at hheld
      exact List.not_mem_nil hheld
    · rw [(h.shows ht).mem_markers_iff, Standing.calls, Standing.scopes_eq_nil hnothing] at hmark
      exact List.not_mem_nil hmark
  exact fun i => ⟨Lock.eq_free_of_not_heldBy fun thread hheld => hnobody i thread (.inl hheld),
    List.eq_nil_iff_forall_not_mem.mpr fun thread hmark => hnobody i thread (.inr hmark)⟩

end Threads

end ShardStore
