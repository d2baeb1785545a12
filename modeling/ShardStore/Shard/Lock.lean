/-!
# Shared and exclusive locks

A lock is held by any number of readers or by one writer. `Lock.grants` says when a request can
be met at once; a request that cannot be met waits and changes nothing. Holders are of a type `T`:
threads in a store, workers and other threads where a traversal is taken apart.
-/

namespace ShardStore

/-- The identity of a thread. A thread that starts another one waits for its end, so of the threads
that descend from one origin at most one of each depth is there at a time. -/
structure ThreadId where
  /-- Which of the threads that were there at the start it is, or descends from. -/
  origin : Nat
  /-- How many threads it is away from that one. -/
  depth : Nat := 0
deriving DecidableEq, Repr, Inhabited

/-- The thread that a thread starts. -/
def ThreadId.child (thread : ThreadId) : ThreadId :=
  { thread with depth := thread.depth + 1 }

/-- A thread is none of those that it starts or that those start. -/
theorem ThreadId.child_ne (thread : ThreadId) : thread.child ≠ thread := fun h =>
  Nat.succ_ne_self thread.depth (congrArg ThreadId.depth h)

/-- What a lock is asked for. -/
inductive Access where
  /-- Reading, together with other readers. -/
  | shared
  /-- Writing, alone. -/
  | exclusive
deriving DecidableEq, Repr

/-- Who holds a lock. A holder stands among the readers once for each shared hold. -/
structure Lock (T : Type) where
  readers : List T := []
  writer : Option T := none
deriving DecidableEq, Repr, Inhabited

namespace Lock

variable {T : Type}

/-- A lock that nobody holds. -/
def free : Lock T := {}

/-- Whether a request can be met at once. -/
def grants (lock : Lock T) : Access → Bool
  | .shared => lock.writer.isNone
  | .exclusive => lock.writer.isNone && lock.readers.isEmpty

/-- The lock after a request of `holder` was met. -/
def take (lock : Lock T) (holder : T) : Access → Lock T
  | .shared => { lock with readers := holder :: lock.readers }
  | .exclusive => { lock with writer := some holder }

/-- The lock after `holder` gave one hold back. -/
def release [DecidableEq T] (lock : Lock T) (holder : T) : Access → Lock T
  | .shared => { lock with readers := lock.readers.erase holder }
  | .exclusive => { lock with writer := none }

/-- Whether `holder` holds the lock in either way. -/
def HeldBy (lock : Lock T) (holder : T) : Prop :=
  holder ∈ lock.readers ∨ lock.writer = some holder

instance [DecidableEq T] (lock : Lock T) (holder : T) : Decidable (lock.HeldBy holder) :=
  inferInstanceAs (Decidable (_ ∨ _))

/-- A lock that nobody holds is free. -/
theorem eq_free_of_not_heldBy {lock : Lock T} (h : ∀ holder, ¬lock.HeldBy holder) : lock = free := by
  obtain ⟨readers, writer⟩ := lock
  obtain rfl : readers = [] := List.eq_nil_iff_forall_not_mem.mpr fun holder hmem => h holder (.inl hmem)
  cases writer with
  | none => rfl
  | some holder => exact (h holder (.inr rfl)).elim

/-- A lock that is granted has no writer. -/
theorem writer_eq_none_of_grants {lock : Lock T} {access : Access}
    (h : lock.grants access = true) : lock.writer = none := by
  cases access with
  | shared => exact Option.isNone_iff_eq_none.mp h
  | exclusive => exact Option.isNone_iff_eq_none.mp (Bool.and_eq_true_iff.mp h).1

/-- A lock that is granted to a writer is held by nobody. -/
theorem not_heldBy_of_grants_exclusive {lock : Lock T} (h : lock.grants .exclusive = true)
    (holder : T) : ¬lock.HeldBy holder := by
  rintro (hreader | hwriter)
  · rw [List.isEmpty_iff.mp (Bool.and_eq_true_iff.mp h).2] at hreader
    exact List.not_mem_nil hreader
  · rw [writer_eq_none_of_grants h] at hwriter
    cases hwriter

/-- A lock that is refused is held by someone. -/
theorem exists_heldBy_of_grants_eq_false {lock : Lock T} {access : Access}
    (h : lock.grants access = false) : ∃ holder, lock.HeldBy holder := by
  refine Classical.byContradiction fun hnobody => ?_
  rw [eq_free_of_not_heldBy (not_exists.mp hnobody)] at h
  cases access <;> cases h

/-- Readers and a writer never hold the lock together. -/
def Consistent (lock : Lock T) : Prop :=
  lock.writer ≠ none → lock.readers = []

theorem consistent_free : (free : Lock T).Consistent := fun _ => rfl

theorem consistent_take {lock : Lock T} {access : Access} (h : lock.grants access = true)
    (holder : T) : (lock.take holder access).Consistent := by
  cases access with
  | shared =>
    intro hw
    simp only [grants, Option.isNone_iff_eq_none] at h
    exact absurd h hw
  | exclusive =>
    intro _
    simp only [grants, Bool.and_eq_true, List.isEmpty_iff] at h
    exact h.2

theorem consistent_release [DecidableEq T] {lock : Lock T} (h : lock.Consistent) (holder : T)
    (access : Access) : (lock.release holder access).Consistent := by
  cases access with
  | shared =>
    intro hw
    simp only [release] at hw ⊢
    rw [h hw]
    rfl
  | exclusive => exact fun hw => absurd rfl hw

/-- Giving back what was taken restores the lock. -/
theorem release_take [DecidableEq T] {lock : Lock T} {access : Access}
    (h : lock.grants access = true) (holder : T) :
    (lock.take holder access).release holder access = lock := by
  cases access with
  | shared => simp [take, release]
  | exclusive =>
    simp only [grants, Bool.and_eq_true, Option.isNone_iff_eq_none] at h
    simp [take, release, ← h.1]

end Lock

end ShardStore
