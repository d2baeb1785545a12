import ShardStore.Tally

/-!
# Statistics

Sizes and tallies of all shards, and how unevenly the entries are spread over them.
-/

namespace ShardStore

/-- Statistics of a store. -/
structure Stats where
  /-- Number of entries in all shards. -/
  size : Nat
  /-- Number of entries of each shard, in order. -/
  shardSizes : List Nat
  /-- Tally of each shard, in order. -/
  operations : List Tally
deriving Inhabited

namespace Stats

/-- The double nearest to a size; sizes are words. -/
def toDouble (size : Nat) : Float :=
  (UInt64.ofNat size).toFloat

/-- The size of the largest shard divided by the mean size, and zero where there is no mean. The
mean is rounded to a double before it divides. -/
def maxLoadRatio (stats : Stats) : Float :=
  if stats.size = 0 ∨ stats.shardSizes = [] then 0
  else
    let mean := toDouble stats.size / toDouble stats.shardSizes.length
    toDouble (stats.shardSizes.foldl max 0) / mean

end Stats

end ShardStore
