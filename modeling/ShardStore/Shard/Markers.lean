import ShardStore.Shard.Lock

/-!
# Callback markers

A shard keeps a list of the threads that are running a callback under its lock, one mark for each
running callback. Entering appends a mark. Leaving takes the thread's first mark out and lets the
last mark of the list fill the gap, so marks move while other threads leave; only how often a
thread is listed has a meaning.
-/

namespace ShardStore

/-- The list without the element at a position; the last element takes its place. -/
def swapRemove {α : Type} (list : List α) (position : Nat) : List α :=
  match list.getLast? with
  | none => []
  | some last => (list.set position last).dropLast

/-- The threads that are running a callback under a shard's lock. -/
abbrev Markers : Type := List ThreadId

namespace Markers

/-- Marks that a thread starts a callback. -/
def enter (markers : Markers) (thread : ThreadId) : Markers :=
  markers ++ [thread]

/-- Takes back one mark of a thread; without one, nothing changes. -/
def leave (markers : Markers) (thread : ThreadId) : Markers :=
  match markers.idxOf? thread with
  | some position => swapRemove markers position
  | none => markers

end Markers

end ShardStore
