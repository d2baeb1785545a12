import ShardStore.Concurrent.Threads

/-!
# Points of a course

A course that a thread runs alone passes through points: what is left of it, with the store and the
thread's own state. `Process.Reaches` lists them all, `Process.running` reads off a point which
callbacks are running there, and `Process.upcoming?` which action comes next. Running a course to
its end is passing through points up to one at which it has ended or waits
(`Process.exists_reaches_run`).
-/

namespace ShardStore

namespace Action

variable {σ V β : Type} {n : Nat} {me : ThreadId}

/-- The shard whose callback is over, but whose mark the action is still to take back. -/
def closes : Action n V β → List (Fin n)
  | .unmark i => [i]
  | _ => []

/-- The only action that waits is asking for a lock, and it changes nothing while it waits. -/
theorem eq_acquire_of_blocked {action : Action n V β} {store store' : Store σ V n}
    (h : action.perform me store = (.blocked, store')) :
    store' = store ∧ ∃ i access,
      (⟨β, action⟩ : (β : Type) × Action n V β) = ⟨Unit, .acquire i access⟩ ∧
      (store.shard i).lock.grants access = false := by
  cases action with
  | route key =>
    simp only [perform] at h
    split at h <;> cases h
  | check i =>
    simp only [perform] at h
    split at h <;> cases h
  | acquire i access =>
    simp only [perform] at h
    split at h
    · cases h
    · next hgrants =>
      exact ⟨(Prod.mk.inj h).2.symm, i, access, rfl, Bool.eq_false_iff.mpr hgrants⟩
  | _ => cases h

end Action

namespace Process

variable {σ S V α β : Type} {mode : Threading} {n : Nat} {me : ThreadId}

/-- The shards under whose locks callbacks of the thread are running, innermost first. -/
def running : {α : Type} → Process mode n S V α → List (Fin n)
  | _, .act action _ => action.closes
  | _, .attempt scope part _ => part.running ++ scope.toList
  | _, _ => []

/-- The action that the thread performs next, if an action is next. -/
def upcoming? : {α : Type} → Process mode n S V α → Option ((β : Type) × Action n V β)
  | _, .act action _ => some ⟨_, action⟩
  | _, .attempt _ part _ => part.upcoming?
  | _, _ => none

/-- The points that a course run by one thread passes through. -/
inductive Reaches (me : ThreadId) (p : Process mode n S V α) (store : Store σ V n) (own : S) :
    Process mode n S V α → Store σ V n → S → Prop where
  | refl : Reaches me p store own p store own
  | step {p' p'' : Process mode n S V α} {store' store'' : Store σ V n} {own' own'' : S}
      (h : Reaches me p store own p' store' own')
      (hstep : p'.step? me store' own' = some (p'', store'', own'')) :
      Reaches me p store own p'' store'' own''

theorem Reaches.trans {p p' p'' : Process mode n S V α} {store store' store'' : Store σ V n}
    {own own' own'' : S} (h : Reaches me p store own p' store' own')
    (h' : Reaches me p' store' own' p'' store'' own'') :
    Reaches me p store own p'' store'' own'' := by
  induction h' with
  | refl => exact h
  | step _ hstep ih => exact .step ih hstep

/-- One step and then the points of the rest. -/
theorem Reaches.head {p p' p'' : Process mode n S V α} {store store' store'' : Store σ V n}
    {own own' own'' : S} (hstep : p.step? me store own = some (p', store', own'))
    (h : Reaches me p' store' own' p'' store'' own'') : Reaches me p store own p'' store'' own'' :=
  Reaches.trans (.step .refl hstep) h

/-- A course that makes a step has not ended. -/
theorem ended?_of_step? {p p' : Process mode n S V α} {store store' : Store σ V n} {own own' : S}
    (h : p.step? me store own = some (p', store', own')) : p.ended? = none := by
  cases p with
  | done => cases h
  | unwind => cases h
  | _ => rfl

/-- A part passes through its points inside the course that attempts it. -/
theorem Reaches.attempt {scope : Option (Fin n)} {part part' : Process mode n S V β}
    {next : Except Fault β → Process mode n S V α} {store store' : Store σ V n} {own own' : S}
    (h : Reaches me part store own part' store' own') :
    Reaches me (.attempt scope part next) store own (.attempt scope part' next) store' own' := by
  induction h with
  | refl => exact .refl
  | step _ hstep ih =>
    refine .step ih ?_
    simp only [step?, ended?_of_step? hstep, hstep, Option.map_some]

/-- A started thread passes through its points inside the course that waits for it. -/
theorem Reaches.onThread {may : mode = .spawning} {own fresh fresh' : S}
    {part part' : Process mode n S V β} {next : Except Fault β → Process mode n S V α}
    {store store' : Store σ V n} (h : Reaches me.child part store fresh part' store' fresh') :
    Reaches me (.onThread may fresh part next) store own
      (.onThread may fresh' part' next) store' own := by
  induction h with
  | refl => exact .refl
  | step _ hstep ih =>
    refine .step ih ?_
    simp only [step?, ended?_of_step? hstep, hstep, Option.map_some]

/-- How a course is left at its last point. -/
def EndsAs (me : ThreadId) (p : Process mode n S V α) (store : Store σ V n) (own : S) :
    Outcome α → Prop
  | .returned value => p = .done value
  | .unwound fault => p = .unwind fault
  | .blocked => p.ended? = none ∧ p.step? me store own = none

/-- Running a course passes through points up to the one at which it ends or waits. -/
theorem exists_reaches_run (me : ThreadId) (p : Process mode n S V α) (store : Store σ V n)
    (own : S) :
    ∃ p', Reaches me p store own p' (p.run me store own).2.1 (p.run me store own).2.2 ∧
      p'.EndsAs me (p.run me store own).2.1 (p.run me store own).2.2 (p.run me store own).1 := by
  induction p generalizing me store own with
  | done value => exact ⟨_, .refl, rfl⟩
  | unwind fault => exact ⟨_, .refl, rfl⟩
  | act action next ih =>
    rcases haction : action.perform me store with ⟨outcome, store'⟩
    cases outcome with
    | returned b =>
      obtain ⟨p', hreaches, hends⟩ := ih b me store' own
      simp only [run, haction]
      exact ⟨p', hreaches.head (by simp only [step?, haction]), hends⟩
    | unwound fault =>
      simp only [run, haction]
      exact ⟨_, .step .refl (by simp only [step?, haction]), rfl⟩
    | blocked =>
      -- It waits at this point, which therefore is the last one.
      obtain ⟨rfl, -⟩ := Action.eq_acquire_of_blocked haction
      simp only [run, haction]
      exact ⟨_, .refl, rfl, by simp only [step?, haction]⟩
  | withOwn change next ih =>
    obtain ⟨p', hreaches, hends⟩ := ih (change own).1 me store (change own).2
    exact ⟨p', hreaches.head rfl, hends⟩
  | attempt scope part next ihpart ihnext =>
    -- The points of the part come first, and its end is where what follows starts.
    obtain ⟨part', hreaches, hends⟩ := ihpart me store own
    rcases hpart : part.run me store own with ⟨outcome, store', own'⟩
    simp only [hpart] at hreaches hends
    cases outcome with
    | returned b =>
      obtain ⟨p', hreaches', hends'⟩ := ihnext (.ok b) me store' own'
      simp only [run, hpart]
      refine ⟨p', hreaches.attempt.trans (hreaches'.head ?_), hends'⟩
      obtain rfl : part' = .done b := hends
      rfl
    | unwound fault =>
      obtain ⟨p', hreaches', hends'⟩ := ihnext (.error fault) me store' own'
      simp only [run, hpart]
      refine ⟨p', hreaches.attempt.trans (hreaches'.head ?_), hends'⟩
      obtain rfl : part' = .unwind fault := hends
      rfl
    | blocked =>
      simp only [run, hpart]
      exact ⟨_, hreaches.attempt, rfl, by simp only [step?, hends.1, hends.2, Option.map_none]⟩
  | onThread may fresh part next ihpart ihnext =>
    obtain ⟨part', hreaches, hends⟩ := ihpart me.child store fresh
    rcases hpart : part.run me.child store fresh with ⟨outcome, store', fresh'⟩
    simp only [hpart] at hreaches hends
    cases outcome with
    | returned b =>
      obtain ⟨p', hreaches', hends'⟩ := ihnext (.ok b) me store' own
      simp only [run, hpart]
      refine ⟨p', hreaches.onThread.trans (hreaches'.head ?_), hends'⟩
      obtain rfl : part' = .done b := hends
      rfl
    | unwound fault =>
      obtain ⟨p', hreaches', hends'⟩ := ihnext (.error fault) me store' own
      simp only [run, hpart]
      refine ⟨p', hreaches.onThread.trans (hreaches'.head ?_), hends'⟩
      obtain rfl : part' = .unwind fault := hends
      rfl
    | blocked =>
      simp only [run, hpart]
      exact ⟨_, hreaches.onThread, rfl, by simp only [step?, hends.1, hends.2, Option.map_none]⟩

/-! ## Courses that start no other threads -/

/-- A step of a thread that starts no others performs the action that comes next, or leaves the
store alone. -/
theorem store_of_step? {p p' : Process .single n S V α} {store store' : Store σ V n}
    {own own' : S} (hstep : p.step? me store own = some (p', store', own')) :
    store' = store ∨ ∃ (β : Type) (action : Action n V β), p.upcoming? = some ⟨β, action⟩ ∧
      store' = (action.perform me store).2 := by
  induction p generalizing own own' with
  | done => cases hstep
  | unwind => cases hstep
  | act action next _ =>
    refine .inr ⟨_, action, rfl, ?_⟩
    simp only [Process.step?] at hstep
    split at hstep
    · next hperform => cases hstep; rw [hperform]
    · next hperform => cases hstep; rw [hperform]
    · cases hstep
  | withOwn change next _ =>
    cases hstep
    exact .inl rfl
  | attempt scope part next ihpart _ =>
    simp only [Process.step?] at hstep
    split at hstep
    · cases hstep
      exact .inl rfl
    · obtain ⟨⟨part', store₁, own₁⟩, hstep', heq⟩ := Option.map_eq_some_iff.mp hstep
      cases heq
      exact ihpart hstep'
  | onThread may => cases may

/-- A thread that starts no others waits only for a lock that it asks for. -/
theorem exists_acquire_of_step?_eq_none {p : Process .single n S V α} {store : Store σ V n}
    {own : S} (hended : p.ended? = none) (hstep : p.step? me store own = none) :
    ∃ i access, p.upcoming? = some ⟨Unit, .acquire i access⟩ ∧
      (store.shard i).lock.grants access = false := by
  induction p generalizing own with
  | done => cases hended
  | unwind => cases hended
  | act action next _ =>
    simp only [step?] at hstep
    split at hstep
    · cases hstep
    · cases hstep
    · next hperform =>
      obtain ⟨-, i, access, haction, hgrants⟩ := Action.eq_acquire_of_blocked hperform
      exact ⟨i, access, congrArg some haction, hgrants⟩
  | withOwn => cases hstep
  | attempt scope part next ihpart _ =>
    simp only [step?] at hstep
    split at hstep
    · cases hstep
    · next hpart => exact ihpart hpart (Option.map_eq_none_iff.mp hstep)
  | onThread may => cases may

end Process

end ShardStore
