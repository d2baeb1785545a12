import ShardStore.Program

/-!
# Threads

Several threads on one store, each with a course of actions of its own. `Process.step?` performs
the next action of a course, so that between any two actions of a thread the others may act; while
a course waits for a thread that it has started, its steps are the steps of that thread.
`Threads.Reaches` is every interleaving that the locks admit. Running a course alone to its end is
the interleaving in which nobody else acts (`Process.run_step?`).
-/

namespace ShardStore

namespace Process

variable {σ S V α β : Type} {mode : Threading} {n : Nat}

/-- How a course has ended, if it has. -/
def ended? : Process mode n S V α → Option (Except Fault α)
  | .done value => some (.ok value)
  | .unwind fault => some (.error fault)
  | _ => none

/-- A course that has ended does nothing more. -/
theorem eq_of_ended? {p : Process mode n S V α} {result : Except Fault α}
    (h : p.ended? = some result) : (∃ value, result = .ok value ∧ p = .done value) ∨
      ∃ fault, result = .error fault ∧ p = .unwind fault := by
  unfold ended? at h
  split at h
  · next value => exact .inl ⟨value, (Option.some.inj h).symm, rfl⟩
  · next fault => exact .inr ⟨fault, (Option.some.inj h).symm, rfl⟩
  · cases h

/-- The next step of a course of thread `me`: `none` if it has ended or waits for a lock. -/
def step? (me : ThreadId) :
    {α : Type} → Process mode n S V α → Store σ V n → S →
      Option (Process mode n S V α × Store σ V n × S)
  | _, .done _, _, _ => none
  | _, .unwind _, _, _ => none
  | _, .act action next, store, own =>
    match action.perform me store with
    | (.returned b, store) => some (next b, store, own)
    | (.unwound fault, store) => some (.unwind fault, store, own)
    | (.blocked, _) => none
  | _, .withOwn change next, store, own =>
    let (b, own) := change own
    some (next b, store, own)
  | _, .attempt scope part next, store, own =>
    match part.ended? with
    | some result => some (next result, store, own)
    | none => (step? me part store own).map fun (part, store, own) =>
        (.attempt scope part next, store, own)
  | _, .onThread may fresh part next, store, own =>
    match part.ended? with
    | some result => some (next result, store, own)
    | none => (step? me.child part store fresh).map fun (part, store, fresh) =>
        (.onThread may fresh part next, store, own)

/-- A course alone ends as it ends after its next step. -/
theorem run_step? {me : ThreadId} {p p' : Process mode n S V α} {store store' : Store σ V n}
    {own own' : S} (h : p.step? me store own = some (p', store', own')) :
    p.run me store own = p'.run me store' own' := by
  induction p generalizing me store own store' own' with
  | done => cases h
  | unwind => cases h
  | act action next _ =>
    simp only [step?] at h
    split at h
    · next heq => cases h; simp only [run, heq]
    · next heq => cases h; simp only [run, heq]
    · cases h
  | withOwn change next _ =>
    simp only [step?, Option.some.injEq, Prod.mk.injEq] at h
    obtain ⟨rfl, rfl, rfl⟩ := h
    rfl
  | attempt scope part next ih _ =>
    simp only [step?] at h
    split at h
    · next result hended =>
      cases h
      obtain ⟨value, rfl, rfl⟩ | ⟨fault, rfl, rfl⟩ := eq_of_ended? hended <;> rfl
    · simp only [Option.map_eq_some_iff] at h
      obtain ⟨⟨part', store₁, own₁⟩, hstep, heq⟩ := h
      cases heq
      simp only [run, ih hstep]
  | onThread may fresh part next ih _ =>
    simp only [step?] at h
    split at h
    · next result hended =>
      cases h
      obtain ⟨value, rfl, rfl⟩ | ⟨fault, rfl, rfl⟩ := eq_of_ended? hended <;> rfl
    · simp only [Option.map_eq_some_iff] at h
      obtain ⟨⟨part', store₁, fresh₁⟩, hstep, heq⟩ := h
      cases heq
      simp only [run, ih hstep]

end Process

/-- Threads on one store; the `t`-th of the list is the origin `t` of thread identities. -/
structure Threads (mode : Threading) (σ S V α : Type) (n : Nat) where
  store : Store σ V n
  /-- Each thread's own state and what is left of its course. -/
  courses : List (S × Process mode n S V α)

namespace Threads

variable {mode : Threading} {σ S V α : Type} {n : Nat}

/-- Threads at the start of their programs. -/
def ofPrograms (store : Store σ V n) (programs : List (S × Program mode S V α)) :
    Threads mode σ S V α n :=
  { store, courses := programs.map fun (own, program) => (own, program.process) }

/-- The threads after a step of thread `t`, or of the thread that it waits for to end, if that one
has not ended and does not wait for a lock. -/
def step? (threads : Threads mode σ S V α n) (t : Nat) : Option (Threads mode σ S V α n) :=
  match threads.courses[t]? with
  | none => none
  | some (own, course) =>
    (course.step? { origin := t } threads.store own).map fun (course, store, own) =>
      { store, courses := threads.courses.set t (own, course) }

/-- The interleavings of steps. -/
inductive Reaches : Threads mode σ S V α n → Threads mode σ S V α n → Prop where
  | refl (threads : Threads mode σ S V α n) : Reaches threads threads
  | step {threads threads' threads'' : Threads mode σ S V α n} (t : Nat)
      (h : Reaches threads threads') (hstep : threads'.step? t = some threads'') :
      Reaches threads threads''

/-- Every thread has ended. -/
def Ended (threads : Threads mode σ S V α n) : Prop :=
  ∀ course ∈ threads.courses, course.2.ended?.isSome

/-- Some thread has not ended, and none can make a step. -/
def Deadlocked (threads : Threads mode σ S V α n) : Prop :=
  ¬threads.Ended ∧ ∀ t, threads.step? t = none

theorem Reaches.trans {threads threads' threads'' : Threads mode σ S V α n}
    (h : Reaches threads threads') (h' : Reaches threads' threads'') :
    Reaches threads threads'' := by
  induction h' with
  | refl => exact h
  | step t _ hstep ih => exact .step t ih hstep

end Threads

end ShardStore
