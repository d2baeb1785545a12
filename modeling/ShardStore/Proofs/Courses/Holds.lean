import Mathlib.Data.List.Nodup
import ShardStore.Process.Frame
import ShardStore.Proofs.Courses.Discipline
import ShardStore.Proofs.Courses.Points
import ShardStore.Proofs.Markers

/-!
# The locks and marks of a thread

A thread that keeps to the order of checks, locks and marks can be found on a store: the locks that
it holds and the marks that it has left are those of its standing (`Store.Shows`). One step takes
both to the next standing (`Process.Keeps.step?`), and with it every point of a course.
-/

namespace ShardStore

/-- The locks and the marks of a thread are those of its standing. -/
structure Store.Shows {σ V : Type} {n : Nat} (store : Store σ V n) (me : ThreadId)
    (standing : Standing n) : Prop where
  /-- No shard is locked twice. -/
  apart : (standing.holds.map Prod.fst).Nodup
  /-- A shard that was found without a mark has none. -/
  cleared : ∀ i ∈ standing.stage.found, i ∉ standing.calls
  marks : ∀ i, (store.shard i).markers.count me = standing.calls.count i
  readers : ∀ i, (store.shard i).lock.readers.count me = standing.holds.count (i, .shared)
  writer : ∀ i, (store.shard i).lock.writer = some me ↔ (i, .exclusive) ∈ standing.holds

namespace Store.Shows

variable {σ V β : Type} {n : Nat} {store store' : Store σ V n} {me : ThreadId}
  {scopes : List (Fin n × Access)}

/-- Only locks and marks matter. -/
theorem congr {standing : Standing n} (h : store.Shows me standing)
    (hlock : ∀ i, (store'.shard i).lock = (store.shard i).lock)
    (hmarkers : ∀ i, (store'.shard i).markers = (store.shard i).markers) :
    store'.Shows me standing where
  apart := h.apart
  cleared := h.cleared
  marks i := by rw [hmarkers, h.marks]
  readers i := by rw [hlock, h.readers]
  writer i := by rw [hlock, h.writer]

/-- A change of a shard's table or tally does not matter. -/
theorem modify {standing : Standing n} (h : store.Shows me standing) (i : Fin n)
    {change : Shard V → Shard V} (hlock : ∀ shard, (change shard).lock = shard.lock)
    (hmarkers : ∀ shard, (change shard).markers = shard.markers) :
    (store.modify i change).Shows me standing := by
  refine h.congr (fun j => ?_) (fun j => ?_)
  · rw [Store.shard_modify]
    split
    · exact hlock _
    · rfl
  · rw [Store.shard_modify]
    split
    · exact hmarkers _
    · rfl

/-- What a thread knows of a shard that it has not locked may be forgotten. -/
theorem idle {stage : Stage n} (h : store.Shows me ⟨stage, scopes⟩) (hfree : stage.holds = []) :
    store.Shows me ⟨.idle, scopes⟩ := by
  have hholds : (⟨stage, scopes⟩ : Standing n).holds = (⟨.idle, scopes⟩ : Standing n).holds := by
    rw [Standing.holds, hfree]
    rfl
  exact
    { apart := hholds ▸ h.apart
      cleared := fun _ hfound => absurd hfound List.not_mem_nil
      marks := h.marks
      readers := fun i => (h.readers i).trans (by rw [hholds])
      writer := fun i => (h.writer i).trans (by rw [hholds]) }

/-- A thread has marked a shard just if it has a scope open there. -/
theorem mem_markers_iff {standing : Standing n} (h : store.Shows me standing) (i : Fin n) :
    me ∈ (store.shard i).markers ↔ i ∈ standing.calls := by
  rw [← List.count_pos_iff, h.marks, List.count_pos_iff]

/-- A thread holds the locks of its standing. -/
theorem heldBy_iff {standing : Standing n} (h : store.Shows me standing) (i : Fin n) :
    (store.shard i).lock.HeldBy me ↔ i ∈ standing.holds.map Prod.fst := by
  have hreaders : me ∈ (store.shard i).lock.readers ↔ (i, .shared) ∈ standing.holds := by
    rw [← List.count_pos_iff, h.readers, List.count_pos_iff]
  rw [Lock.HeldBy, hreaders, h.writer, List.mem_map]
  constructor
  · rintro (hmem | hmem)
    · exact ⟨_, hmem, rfl⟩
    · exact ⟨_, hmem, rfl⟩
  · rintro ⟨⟨j, access⟩, hmem, rfl⟩
    cases access with
    | shared => exact .inl hmem
    | exclusive => exact .inr hmem

/-- No scope is open twice. -/
theorem nodup_calls {standing : Standing n} (h : store.Shows me standing) :
    standing.calls.Nodup := by
  have hapart := h.apart
  rw [Standing.holds, List.map_append] at hapart
  exact (List.nodup_append.mp hapart).2.1

/-! ## One action -/

variable {i : Fin n} {access : Access} {found : List (Fin n)}

/-- Looking for a mark and finding none. -/
theorem check (h : store.Shows me ⟨.cleared found, scopes⟩)
    (hmark : me ∉ (store.shard i).markers) :
    store.Shows me ⟨.cleared (i :: found), scopes⟩ where
  apart := h.apart
  cleared := List.forall_mem_cons.mpr
    ⟨fun hmem => hmark ((h.mem_markers_iff i).mpr hmem), h.cleared⟩
  marks := h.marks
  readers := h.readers
  writer := h.writer

/-- Taking the lock of a shard that was found without a mark. -/
theorem acquire (h : store.Shows me ⟨.cleared found, scopes⟩) (hi : i ∈ found) :
    (store.modify i fun shard => { shard with lock := shard.lock.take me access }).Shows me
      ⟨.holding i access found, scopes⟩ where
  apart := List.nodup_cons.mpr ⟨h.cleared i hi, h.apart⟩
  cleared := h.cleared
  marks j := by
    rw [Store.shard_modify]
    split <;> exact h.marks j
  readers j := by
    -- One reader more of this shard, one hold more of the standing.
    have hj := h.readers j
    by_cases hij : i = j
    · subst hij
      rw [Store.shard_modify_self]
      cases access with
      | shared => exact (List.count_cons_self).trans ((congrArg (· + 1) hj).trans
          List.count_cons_self.symm)
      | exclusive => exact hj.trans (List.count_cons_of_ne (by simp)).symm
    · rw [Store.shard_modify_ne store hij]
      exact hj.trans (List.count_cons_of_ne (by simp [hij])).symm
  writer j := by
    have hj := h.writer j
    by_cases hij : i = j
    · subst hij
      rw [Store.shard_modify_self]
      cases access with
      | shared => exact hj.trans (by simp [Standing.holds, Stage.holds])
      | exclusive => simp [Standing.holds, Stage.holds, Lock.take]
    · rw [Store.shard_modify_ne store hij, hj]
      simp [Standing.holds, Stage.holds, Ne.symm hij]

/-- Giving a lock back. -/
theorem release (h : store.Shows me ⟨.holding i access found, scopes⟩) :
    (store.modify i fun shard => { shard with lock := shard.lock.release me access }).Shows me
      ⟨.cleared (i :: found), scopes⟩ := by
  obtain ⟨hnot, hapart⟩ := List.nodup_cons.mp h.apart
  have hnot' (access : Access) : (i, access) ∉ scopes := fun hmem =>
    hnot (List.mem_map.mpr ⟨_, hmem, rfl⟩)
  refine ⟨hapart, List.forall_mem_cons.mpr ⟨hnot, h.cleared⟩, fun j => ?_, fun j => ?_,
    fun j => ?_⟩
  · rw [Store.shard_modify]
    split <;> exact h.marks j
  · have hj := h.readers j
    by_cases hij : i = j
    · subst hij
      rw [Store.shard_modify_self]
      cases access with
      | shared =>
        refine List.count_erase_self.trans ?_
        rw [hj]
        simp [Standing.holds, Stage.holds]
      | exclusive => exact hj.trans (List.count_cons_of_ne (by simp))
    · rw [Store.shard_modify_ne store hij]
      exact hj.trans (List.count_cons_of_ne (by simp [hij]))
  · have hj := h.writer j
    by_cases hij : i = j
    · subst hij
      rw [Store.shard_modify_self]
      cases access with
      | shared => exact hj.trans (by simp [Standing.holds, Stage.holds])
      | exclusive =>
        -- No scope around is of this shard, so nothing else can keep the lock.
        simp [Standing.holds, Stage.holds, Lock.release, hnot']
    · rw [Store.shard_modify_ne store hij, hj]
      simp [Standing.holds, Stage.holds, Ne.symm hij]

/-- Marking a shard whose lock is held. -/
theorem mark (h : store.Shows me ⟨.holding i access found, scopes⟩) :
    (store.modify i fun shard => { shard with markers := shard.markers.enter me }).Shows me
      ⟨.idle, (i, access) :: scopes⟩ where
  apart := h.apart
  cleared _ hfound := absurd hfound List.not_mem_nil
  marks j := by
    have hj := h.marks j
    by_cases hij : i = j
    · subst hij
      rw [Store.shard_modify_self]
      exact (Markers.count_enter _ _).trans ((congrArg (· + 1) hj).trans List.count_cons_self.symm)
    · rw [Store.shard_modify_ne store hij]
      exact hj.trans (List.count_cons_of_ne hij).symm
  readers j := by
    rw [Store.shard_modify]
    split <;> exact h.readers j
  writer j := by
    rw [Store.shard_modify]
    split <;> exact h.writer j

/-- Taking a mark back. -/
theorem unmark (h : store.Shows me ⟨.idle, (i, access) :: scopes⟩) :
    (store.modify i fun shard => { shard with markers := shard.markers.leave me }).Shows me
      ⟨.holding i access [], scopes⟩ where
  apart := h.apart
  cleared _ hfound := absurd hfound List.not_mem_nil
  marks j := by
    have hj := h.marks j
    by_cases hij : i = j
    · subst hij
      rw [Store.shard_modify_self]
      refine (Markers.count_leave _ _).trans ?_
      rw [hj]
      simp [Standing.calls]
    · rw [Store.shard_modify_ne store hij]
      exact hj.trans (List.count_cons_of_ne hij)
  readers j := by
    rw [Store.shard_modify]
    split <;> exact h.readers j
  writer j := by
    rw [Store.shard_modify]
    split <;> exact h.writer j

/-- A thread that holds nothing outside of some scopes deals with no shard inside them. -/
theorem rest {standing : Standing n} (h : store.Shows me (standing.under scopes))
    (hfree : standing.holds = []) : store.Shows me (Standing.idle.under scopes) := by
  obtain ⟨stage, inner⟩ := standing
  obtain ⟨hstage, hinner⟩ := List.append_eq_nil_iff.mp hfree
  obtain rfl : inner = [] := hinner
  exact h.idle hstage

/-- Such a thread still knows on which shards it found no mark. -/
theorem stillCleared {standing : Standing n} (h : store.Shows me (standing.under scopes))
    (hfree : standing.holds = []) (hfound : found ⊆ standing.stage.found) :
    store.Shows me ⟨.cleared found, scopes⟩ where
  apart := (h.rest hfree).apart
  cleared i hi := by
    have hclear := h.cleared i (hfound hi)
    rwa [Standing.calls, Standing.under, Standing.scopes_eq_nil hfree] at hclear
  marks := (h.rest hfree).marks
  readers := (h.rest hfree).readers
  writer := (h.rest hfree).writer

end Store.Shows

namespace Standing.Allows

variable {σ V β : Type} {n : Nat} {store store' : Store σ V n} {me : ThreadId}
  {scopes : List (Fin n × Access)} {standing standing' : Standing n} {action : Action n V β}

/-- Asking the router leaves locks and marks alone. -/
private theorem shows_route {key : String} (h : store.Shows me standing) :
    ((Action.route key : Action n V (Fin n)).perform me store).2.Shows me standing := by
  have hshard (i : Fin n) :
      ((Action.route key : Action n V (Fin n)).perform me store).2.shard i = store.shard i :=
    Action.shard_perform me _ store (nomatch ·)
  exact h.congr (fun i => by rw [hshard]) (fun i => by rw [hshard])

/-- An action that is allowed takes the locks and marks of its thread to the next standing. -/
theorem shows (hallows : standing.Allows action standing')
    (h : store.Shows me (standing.under scopes)) {b : β}
    (hperform : action.perform me store = (.returned b, store')) :
    store'.Shows me (standing'.under scopes) := by
  obtain rfl : (action.perform me store).2 = store' := congrArg Prod.snd hperform
  cases hallows with
  | route hfree key => exact shows_route (h.rest hfree)
  | check hfree hfound i =>
    by_cases hmark : me ∈ (store.shard i).markers
    · rw [Action.perform, if_pos hmark] at hperform
      cases hperform
    · rw [Action.perform, if_neg hmark]
      exact (h.stillCleared hfree hfound).check hmark
  | counted hfree i counter => exact h.rest hfree
  | bumpCleared i _ counter => exact h.modify i (fun _ => rfl) (fun _ => rfl)
  | acquire i hi access =>
    by_cases hgrants : (store.shard i).lock.grants access = true
    · rw [Action.perform, if_pos hgrants]
      exact Store.Shows.acquire h hi
    · rw [Action.perform, if_neg hgrants] at hperform
      cases hperform
  | bumpHolding i access found counter => exact h.modify i (fun _ => rfl) (fun _ => rfl)
  | load i access found => exact h
  | put i found table => exact h.modify i (fun _ => rfl) (fun _ => rfl)
  | mark i access found => exact Store.Shows.mark h
  | unmark i access => exact Store.Shows.unmark h
  | release i access found => exact Store.Shows.release h

/-- An action that unwinds leaves its thread without a hold outside of the open scopes. -/
theorem shows_of_unwound (hallows : standing.Allows action standing')
    (h : store.Shows me (standing.under scopes)) {fault : Fault}
    (hperform : action.perform me store = (.unwound fault, store')) :
    store'.Shows me (Standing.idle.under scopes) := by
  obtain rfl : (action.perform me store).2 = store' := congrArg Prod.snd hperform
  cases hallows with
  | route hfree key => exact shows_route (h.rest hfree)
  | check hfree hfound i =>
    by_cases hmark : me ∈ (store.shard i).markers
    · rw [Action.perform, if_pos hmark]
      exact h.rest hfree
    · rw [Action.perform, if_neg hmark] at hperform
      cases hperform
  | acquire i _ access =>
    simp only [Action.perform] at hperform
    split at hperform <;> cases hperform
  | _ => cases hperform

/-- No action touches a shard with an open scope around it. -/
theorem shard_perform (hallows : standing.Allows action standing')
    (h : store.Shows me (standing.under scopes)) {j : Fin n} (hj : j ∈ scopes.map Prod.fst) :
    (action.perform me store).2.shard j = store.shard j := by
  -- The shard that the thread deals with is another one, as no shard is locked twice.
  have hcleared {i : Fin n} {found : List (Fin n)} (h : store.Shows me ⟨.cleared found, scopes⟩)
      (hi : i ∈ found) : some i ≠ some j :=
    fun hij => h.cleared i hi (Option.some.inj hij ▸ hj)
  have hholding {i : Fin n} {access : Access}
      (hnodup : (((i, access) :: scopes).map Prod.fst).Nodup) : some i ≠ some j :=
    fun hij => (List.nodup_cons.mp hnodup).1 (Option.some.inj hij ▸ hj)
  cases hallows with
  | route _ key => exact Action.shard_perform me _ store (nomatch ·)
  | check _ _ i =>
    rw [Action.perform]
    split <;> rfl
  | counted => rfl
  | bumpCleared i hi counter => exact Action.shard_perform me _ store (hcleared h hi)
  | acquire i hi access => exact Action.shard_perform me _ store (hcleared h hi)
  | bumpHolding i access found counter => exact Action.shard_perform me _ store (hholding h.apart)
  | load => rfl
  | put i found table => exact Action.shard_perform me _ store (hholding h.apart)
  | mark i access found => exact Action.shard_perform me _ store (hholding h.apart)
  | unmark i access => exact Action.shard_perform me _ store (hholding h.apart)
  | release i access found => exact Action.shard_perform me _ store (hholding h.apart)

/-- Marks of running callbacks are those of the standing, and of an action that is to take back the
innermost one. -/
theorem closes_eq (hallows : standing.Allows action standing') :
    action.closes = standing.calls := by
  cases hallows with
  | unmark => rfl
  | route hfree key => rw [Standing.calls, Standing.scopes_eq_nil hfree]; rfl
  | check hfree hfound i => rw [Standing.calls, Standing.scopes_eq_nil hfree]; rfl
  | counted hfree i counter => rw [Standing.calls, Standing.scopes_eq_nil hfree]; rfl
  | _ => rfl

end Standing.Allows

/-! ## One step, and all points -/

namespace Process

variable {σ S V α β : Type} {mode : Threading} {n : Nat} {me : ThreadId}
  {store store' : Store σ V n} {own own' : S} {scopes : List (Fin n × Access)}
  {standing final : Standing n}

/-- A part that has ended holds nothing. -/
theorem Keeps.holds_of_ended {p : Process mode n S V α} (h : p.Keeps standing .idle)
    {result : Except Fault α} (hended : p.ended? = some result) : standing.holds = [] := by
  cases p with
  | done value =>
    obtain rfl | ⟨hfree, -⟩ := h
    · rfl
    · exact hfree
  | unwind fault => exact h
  | _ => cases hended

/-- One step of a course that keeps to the order takes its locks and marks along. -/
theorem Keeps.step? {p p' : Process mode n S V α} (h : p.Keeps standing final)
    (hshows : store.Shows me (standing.under scopes))
    (hstep : p.step? me store own = some (p', store', own')) :
    ∃ standing', p'.Keeps standing' final ∧ store'.Shows me (standing'.under scopes) := by
  induction p generalizing standing final scopes own own' with
  | done => cases hstep
  | unwind => cases hstep
  | act action next _ =>
    obtain ⟨standing', hallows, hnext⟩ := h
    simp only [Process.step?] at hstep
    split at hstep
    · next b _ hperform =>
      cases hstep
      exact ⟨standing', hnext b, hallows.shows hshows hperform⟩
    · next hperform =>
      cases hstep
      exact ⟨.idle, rfl, hallows.shows_of_unwound hshows hperform⟩
    · cases hstep
  | withOwn change next _ =>
    cases hstep
    exact ⟨standing, h.2 _, hshows⟩
  | attempt scope part next ihpart _ =>
    simp only [Process.step?] at hstep
    cases scope with
    | none =>
      obtain ⟨hpart, hnext⟩ := h
      split at hstep
      · next result hended =>
        cases hstep
        exact ⟨.idle, hnext result, hshows.rest (hpart.holds_of_ended hended)⟩
      · obtain ⟨⟨part', store₁, own₁⟩, hstep', heq⟩ := Option.map_eq_some_iff.mp hstep
        cases heq
        obtain ⟨standing', hpart', hshows'⟩ := ihpart hpart hshows hstep'
        exact ⟨standing', ⟨hpart', hnext⟩, hshows'⟩
    | some i =>
      -- The part runs inside one more scope than the course.
      obtain ⟨inner, access, rfl, hpart, hnext⟩ := h
      rw [Standing.under_under] at hshows
      split at hstep
      · next result hended =>
        cases hstep
        refine ⟨_, hnext result, ?_⟩
        rw [Standing.under_under]
        exact hshows.rest (hpart.holds_of_ended hended)
      · obtain ⟨⟨part', store₁, own₁⟩, hstep', heq⟩ := Option.map_eq_some_iff.mp hstep
        cases heq
        obtain ⟨inner', hpart', hshows'⟩ := ihpart hpart hshows hstep'
        refine ⟨inner'.under [(i, access)], ⟨inner', access, rfl, hpart', hnext⟩, ?_⟩
        rw [Standing.under_under]
        exact hshows'
  | onThread => exact h.elim

/-- The callbacks that are running are those of the standing. -/
theorem Keeps.running_eq {p : Process mode n S V α} (h : p.Keeps standing final)
    (hfinal : final.scopes = []) : p.running = standing.calls := by
  induction p generalizing standing final with
  | done value =>
    obtain rfl | ⟨hfree, -⟩ := h
    · rw [Standing.calls, hfinal]; rfl
    · rw [Standing.calls, Standing.scopes_eq_nil hfree]; rfl
  | unwind fault => rw [Standing.calls, Standing.scopes_eq_nil h]; rfl
  | act action next _ =>
    obtain ⟨standing', hallows, -⟩ := h
    exact hallows.closes_eq
  | withOwn change next _ => rw [Standing.calls, Standing.scopes_eq_nil h.1]; rfl
  | attempt scope part next ihpart _ =>
    cases scope with
    | none => exact (List.append_nil _).trans (ihpart h.1 rfl)
    | some i =>
      obtain ⟨inner, access, rfl, hpart, -⟩ := h
      rw [running, ihpart hpart rfl]
      simp only [Standing.calls, Standing.under, List.map_append, Option.toList_some,
        List.map_cons, List.map_nil]
  | onThread => exact h.elim

/-- The action that comes next is allowed where the innermost part of the course is. -/
theorem Keeps.exists_allows {p : Process mode n S V α} (h : p.Keeps standing final)
    {action : Action n V β} (hupcoming : p.upcoming? = some ⟨β, action⟩) :
    ∃ inner inner' outer, standing = Standing.under inner outer ∧ inner.Allows action inner' := by
  induction p generalizing standing final with
  | done => cases hupcoming
  | unwind => cases hupcoming
  | act action' next _ =>
    obtain ⟨standing', hallows, -⟩ := h
    cases hupcoming
    exact ⟨standing, standing', [], standing.under_nil.symm, hallows⟩
  | withOwn => cases hupcoming
  | attempt scope part next ihpart _ =>
    cases scope with
    | none => exact ihpart h.1 hupcoming
    | some i =>
      obtain ⟨part', access, rfl, hpart, -⟩ := h
      obtain ⟨inner, inner', outer, rfl, hallows⟩ := ihpart hpart hupcoming
      exact ⟨inner, inner', outer ++ [(i, access)], Standing.under_under .., hallows⟩
  | onThread => cases hupcoming

end Process

end ShardStore
