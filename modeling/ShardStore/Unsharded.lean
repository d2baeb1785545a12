import ShardStore.Config
import ShardStore.Table

/-!
# The unsharded map

A map in one piece, for small stores and as a measure for the sharded one. Each call takes the one
lock, does its work on the one table and gives the lock back, so a call is a function on the
table.
-/

namespace ShardStore

/-- A map in one piece. -/
structure Unsharded (V : Type) where
  /-- The entries. -/
  table : Table V := ∅

namespace Unsharded

variable {V : Type}

instance : Inhabited (Unsharded V) := ⟨{}⟩

/-- Entries that a map is given room for unless told otherwise. -/
def defaultCapacity : UInt64 := 100

/-- An empty map with room for so many entries. Its table holds the values themselves, of
`valueWidth` each. -/
def withCapacity (capacity : UInt64) (valueWidth : Nat := 32) : Except Fault (Unsharded V) := do
  checkCapacity (keyWidth + valueWidth) capacity
  return {}

/-- An empty map. -/
def create : Except Fault (Unsharded V) :=
  withCapacity defaultCapacity

theorem create_eq : (create : Except Fault (Unsharded V)) = .ok {} := rfl

/-- Inserts or overwrites. -/
def store (map : Unsharded V) (key : String) (value : V) : Unsharded V :=
  { map with table := map.table.insert key value }

/-- Looks a key up. -/
def lookup (map : Unsharded V) (key : String) : Option V :=
  map.table[key]?

/-- Removes a key if it is there. -/
def delete (map : Unsharded V) (key : String) : Unsharded V :=
  { map with table := map.table.erase key }

/-- The number of entries. -/
def size (map : Unsharded V) : Nat :=
  map.table.size

/-- Whether there is no entry. -/
def isEmpty (map : Unsharded V) : Bool :=
  map.table.isEmpty

/-- The description of a map, given texts for its keys and values. -/
def text (map : Unsharded V) (key : String → String) (value : V → String) : RecordText :=
  .fields "LockedMap" [("inner",
    .fields "Mutex" [("data",
      .table (map.table.toList.map fun entry => (key entry.1, .atom (value entry.2))))])]

end Unsharded

end ShardStore
