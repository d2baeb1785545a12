import ShardStore.Shard.Lock
import ShardStore.Shard.Markers
import ShardStore.Table
import ShardStore.Tally

/-!
# Shards

One part of a store: a table, the lock that guards it, the marks of the callbacks that are running
under that lock, and the tally of what was done.
-/

namespace ShardStore

/-- One part of a store. -/
structure Shard (V : Type) where
  /-- The entries. -/
  table : Table V := ∅
  /-- What was done so far. -/
  tally : Tally := {}
  /-- Who holds the lock. -/
  lock : Lock ThreadId := .free
  /-- Who runs callbacks under the lock. -/
  markers : Markers := []

namespace Shard

variable {V : Type}

instance : Inhabited (Shard V) := ⟨{}⟩

/-- A shard at rest: nobody holds its lock and no callback is running under it. -/
def AtRest (shard : Shard V) : Prop :=
  shard.lock = .free ∧ shard.markers = []

theorem atRest_default : (default : Shard V).AtRest := ⟨rfl, rfl⟩

end Shard

end ShardStore
