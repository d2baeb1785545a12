import Mathlib.Logic.Function.Basic
import ShardStore.Shard.Lock
import ShardStore.Table

/-!
# Tables and locks under traversals

Where the workers of traversals are taken apart, a shard is a table and the lock that guards it.
Besides the workers there are other threads, which may do to the shards whatever the locks allow:
take a lock that is free for them, give back what they hold, and replace a table while they hold
its lock alone.
-/

namespace ShardStore

/-- Who holds a shard's lock. -/
inductive Holder where
  /-- The worker for shard `i` of the traversal number `run`. -/
  | worker (run i : Nat)
  /-- Any other thread. -/
  | other (thread : ThreadId)
deriving DecidableEq, Repr

/-- A table and its lock. -/
structure Cell (V : Type) where
  table : Table V := ∅
  lock : Lock Holder := .free

/-- The shards of a store of `n` shards. -/
abbrev Cells (n : Nat) (V : Type) : Type :=
  Fin n → Cell V

/-- What other threads do. -/
inductive Outside (n : Nat) (V : Type) where
  | lock (thread : ThreadId) (i : Fin n) (access : Access)
  | unlock (thread : ThreadId) (i : Fin n) (access : Access)
  | write (thread : ThreadId) (i : Fin n) (table : Table V)

namespace Cells

variable {n : Nat} {V : Type}

/-- The shards after `holder` took a lock, if the lock could be taken. -/
def take? (cells : Cells n V) (holder : Holder) (i : Fin n) (access : Access) :
    Option (Cells n V) :=
  if (cells i).lock.grants access then
    some (Function.update cells i { cells i with lock := (cells i).lock.take holder access })
  else none

/-- The shards after `holder` gave a lock back. -/
def release (cells : Cells n V) (holder : Holder) (i : Fin n) (access : Access) : Cells n V :=
  Function.update cells i { cells i with lock := (cells i).lock.release holder access }

/-- The shards after an act of another thread, if the locks allow it. -/
def outside? (cells : Cells n V) : Outside n V → Option (Cells n V)
  | .lock thread i access => cells.take? (.other thread) i access
  | .unlock thread i .shared =>
    if .other thread ∈ (cells i).lock.readers then
      some (cells.release (.other thread) i .shared)
    else none
  | .unlock thread i .exclusive =>
    if (cells i).lock.writer = some (.other thread) then
      some (cells.release (.other thread) i .exclusive)
    else none
  | .write thread i table =>
    if (cells i).lock.writer = some (.other thread) then
      some (Function.update cells i { cells i with table })
    else none

/-- Nobody holds a lock. -/
def AtRest (cells : Cells n V) : Prop :=
  ∀ i, (cells i).lock = .free

end Cells

end ShardStore
