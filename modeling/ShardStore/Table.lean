import Std.Data.ExtTreeMap

/-!
# Tables

The contents of a shard: at most one value for each key. Tables with the same look-ups are equal
(`Table.ext_getElem?`), so a statement that two runs leave the same table is an equation.

## The order of the entries

In which order a shard lists its entries is left open by what this models. Here it is the order of
the keys, as a program that runs needs one. No theorem is about that choice: the proofs use that
every entry is listed, and once (`Table.mem_toList`, `Table.keys_toList_nodup`), and that a table is
always listed in the same way, so whatever they say of the list of a shard's entries holds of any
other order that the shard keeps to while nobody writes. Only where a table stands for the members
of a JSON value are these in the order of the keys by themselves (`Form.object`).
-/

namespace ShardStore

/-- The sum of some sizes. -/
def sumOf (sizes : List Nat) : Nat :=
  sizes.foldr (fun size rest => size + rest) 0

/-- A finite map from keys to values. -/
abbrev Table (V : Type) : Type :=
  Std.ExtTreeMap String V

namespace Table

variable {V : Type}

/-- A table with the given entries; of two with one key the later stands. -/
def ofEntries (entries : List (String × V)) : Table V :=
  entries.foldl (fun table entry => table.insert entry.1 entry.2) ∅

/-- Entries added to a table one after another. -/
def addAll (table : Table V) (entries : List (String × V)) : Table V :=
  entries.foldl (fun table entry => table.insert entry.1 entry.2) table

theorem addAll_append (table : Table V) (front back : List (String × V)) :
    table.addAll (front ++ back) = (table.addAll front).addAll back :=
  List.foldl_append

/-- Tables that look up the same value under every key are equal. -/
theorem ext_getElem? {table table' : Table V} (h : ∀ key : String, table[key]? = table'[key]?) :
    table = table' :=
  Std.ExtTreeMap.ext_getElem? h

/-- An entry is listed exactly when its key looks it up. -/
theorem mem_toList {table : Table V} {key : String} {value : V} :
    (key, value) ∈ table.toList ↔ table[key]? = some value :=
  Std.ExtTreeMap.mem_toList_iff_getElem?_eq_some

/-- No key is listed twice. -/
theorem keys_toList_nodup (table : Table V) : (table.toList.map Prod.fst).Nodup := by
  rw [List.Nodup, List.pairwise_map]
  exact Std.ExtTreeMap.distinct_keys_toList.imp fun h heq =>
    h (by rw [heq]; exact Std.ReflCmp.compare_self)

end Table

end ShardStore
