import Mathlib.Data.List.Dedup
import Mathlib.Data.List.Induction
import Mathlib.Data.List.Nodup
import Mathlib.Data.List.Perm.Basic
import ShardStore.Table

/-!
# Tables as lists of entries

Entries added one after another make a table in which the last entry of each key stands. Where no
key is listed twice, order does not matter: lists of entries that are permutations of each other
make the same table (`ofEntries_congr`), and a list makes the table that looks its entries up
(`perm_toList`).
-/

namespace ShardStore

namespace Table

variable {V : Type}

/-! ## Look-ups after a change -/

theorem lookup_insert (table : Table V) (key k : String) (value : V) :
    (table.insert key value)[k]? = if key = k then some value else table[k]? := by
  simp only [Std.ExtTreeMap.getElem?_insert, Std.LawfulEqCmp.compare_eq_iff_eq]

theorem lookup_erase (table : Table V) (key k : String) :
    (table.erase key)[k]? = if key = k then none else table[k]? := by
  simp only [Std.ExtTreeMap.getElem?_erase, Std.LawfulEqCmp.compare_eq_iff_eq]

theorem lookup_empty (key : String) : (∅ : Table V)[key]? = none :=
  Std.ExtTreeMap.getElem?_empty

theorem contains_eq_isSome (table : Table V) (key : String) :
    table.contains key = table[key]?.isSome :=
  Std.ExtTreeMap.contains_eq_isSome_getElem?

/-! ## Lists without repeated keys -/

/-- No entry is listed twice. -/
theorem toList_nodup (table : Table V) : table.toList.Nodup :=
  List.Nodup.of_map _ table.keys_toList_nodup

/-- Tables added one after another add all their entries. -/
theorem foldl_addAll (tables : List (Table V)) (items : Table V) :
    tables.foldl (fun items table => items.addAll table.toList) items =
      items.addAll (tables.flatMap fun table => table.toList) := by
  induction tables generalizing items with
  | nil => rfl
  | cons table rest ih => rw [List.foldl_cons, ih, List.flatMap_cons, addAll_append]

/-- A key that is not among those of the entries keeps its value. -/
theorem lookup_addAll_of_notMem {entries : List (String × V)} {key : String}
    (h : key ∉ entries.map Prod.fst) (table : Table V) :
    (table.addAll entries)[key]? = table[key]? := by
  induction entries generalizing table with
  | nil => rfl
  | cons entry rest ih =>
    rw [List.map_cons, List.mem_cons, not_or] at h
    have hstep : table.addAll (entry :: rest) = addAll (table.insert entry.1 entry.2) rest := rfl
    rw [hstep, ih h.2, lookup_insert, if_neg (Ne.symm h.1)]

/-- Without repeated keys, every entry that was added is looked up. -/
theorem lookup_addAll_of_mem {entries : List (String × V)} (hkeys : (entries.map Prod.fst).Nodup)
    {key : String} {value : V} (h : (key, value) ∈ entries) (table : Table V) :
    (table.addAll entries)[key]? = some value := by
  induction entries generalizing table with
  | nil => exact absurd h List.not_mem_nil
  | cons entry rest ih =>
    rw [List.map_cons, List.nodup_cons] at hkeys
    have hstep : table.addAll (entry :: rest) = addAll (table.insert entry.1 entry.2) rest := rfl
    rw [hstep]
    rcases List.mem_cons.mp h with rfl | hrest
    · rw [lookup_addAll_of_notMem hkeys.1, lookup_insert, if_pos rfl]
    · exact ih hkeys.2 hrest _

/-- Without repeated keys, a table made of entries looks up exactly these. -/
theorem lookup_ofEntries {entries : List (String × V)} (hkeys : (entries.map Prod.fst).Nodup)
    {key : String} {value : V} :
    (ofEntries entries)[key]? = some value ↔ (key, value) ∈ entries := by
  constructor
  · intro h
    by_cases hmem : key ∈ entries.map Prod.fst
    · obtain ⟨⟨k, other⟩, hentry, rfl⟩ := List.mem_map.mp hmem
      have hother := lookup_addAll_of_mem hkeys hentry ∅
      rw [show ofEntries entries = (∅ : Table V).addAll entries from rfl, hother] at h
      cases h
      exact hentry
    · rw [show ofEntries entries = (∅ : Table V).addAll entries from rfl,
        lookup_addAll_of_notMem hmem, lookup_empty] at h
      cases h
  · exact fun h => lookup_addAll_of_mem hkeys h ∅

/-- The entries of a table, each listed once, in any order. -/
theorem perm_toList {entries : List (String × V)} {table : Table V} (hnodup : entries.Nodup)
    (h : ∀ key value, (key, value) ∈ entries ↔ table[key]? = some value) :
    entries.Perm table.toList :=
  (List.perm_ext_iff_of_nodup hnodup table.toList_nodup).mpr fun _ =>
    (h _ _).trans mem_toList.symm

/-- Without repeated keys, the order of the entries does not matter. -/
theorem ofEntries_congr {entries entries' : List (String × V)} (h : entries.Perm entries')
    (hkeys : (entries.map Prod.fst).Nodup) : ofEntries entries = ofEntries entries' := by
  refine ext_getElem? fun key => Option.ext fun value => ?_
  rw [lookup_ofEntries hkeys, lookup_ofEntries ((h.map Prod.fst).nodup_iff.mp hkeys), h.mem_iff]

/-- A table is made of its own entries. -/
theorem ofEntries_toList (table : Table V) : ofEntries table.toList = table :=
  ext_getElem? fun _ => Option.ext fun _ =>
    (lookup_ofEntries table.keys_toList_nodup).trans mem_toList

/-! ## Lists with repeated keys -/

/-- A table added to another stands where both have a key. -/
theorem lookup_addAll_toList (table other : Table V) (key : String) :
    (table.addAll other.toList)[key]? = other[key]?.or table[key]? := by
  cases hother : other[key]? with
  | some value => exact lookup_addAll_of_mem other.keys_toList_nodup (mem_toList.mpr hother) table
  | none =>
    apply lookup_addAll_of_notMem
    intro hmem
    obtain ⟨⟨k, value⟩, hentry, rfl⟩ := List.mem_map.mp hmem
    rw [mem_toList.mp hentry] at hother
    cases hother

/-- Of tables added one after another, the last one that has a key decides. -/
theorem lookup_ofEntries_flatMap {ι : Type} (indices : List ι) (table : ι → Table V)
    (key : String) :
    (ofEntries (indices.flatMap fun i => (table i).toList))[key]? =
      indices.reverse.findSome? fun i => (table i)[key]? := by
  induction indices using List.reverseRecOn with
  | nil => exact lookup_empty key
  | append_singleton front last ih =>
    have hstep : ofEntries ((front ++ [last]).flatMap fun i => (table i).toList) =
        (ofEntries (front.flatMap fun i => (table i).toList)).addAll (table last).toList := by
      rw [List.flatMap_append, List.flatMap_singleton]
      exact addAll_append _ _ _
    rw [hstep, lookup_addAll_toList, ih, List.reverse_append, List.reverse_singleton,
      List.singleton_append, List.findSome?_cons]
    cases (table last)[key]? <;> rfl

/-- The keys of a table made of entries are those of the entries, each once. -/
theorem perm_keys_ofEntries (entries : List (String × V)) :
    (ofEntries entries).keys.Perm (entries.map Prod.fst).dedup := by
  have hmem (table : Table V) (key : String) :
      key ∈ table.addAll entries ↔ key ∈ entries.map Prod.fst ∨ key ∈ table := by
    induction entries generalizing table with
    | nil => simp [addAll]
    | cons entry rest ih =>
      have hstep : table.addAll (entry :: rest) = addAll (table.insert entry.1 entry.2) rest := rfl
      rw [hstep, ih, Std.ExtTreeMap.mem_insert, List.map_cons, List.mem_cons,
        Std.LawfulEqCmp.compare_eq_iff_eq]
      tauto
  refine (List.perm_ext_iff_of_nodup Std.ExtTreeMap.nodup_keys (List.nodup_dedup _)).mpr ?_
  intro key
  rw [Std.ExtTreeMap.mem_keys, List.mem_dedup]
  refine (hmem ∅ key).trans (or_iff_left ?_)
  exact Std.ExtTreeMap.not_mem_empty

/-- A table made of entries is as large as the list if no key is listed twice, else smaller. -/
theorem size_ofEntries (entries : List (String × V)) :
    (ofEntries entries).size ≤ entries.length ∧
      ((ofEntries entries).size = entries.length ↔ (entries.map Prod.fst).Nodup) := by
  have hsize : (ofEntries entries).size = (entries.map Prod.fst).dedup.length := by
    rw [← Std.ExtTreeMap.length_keys, (perm_keys_ofEntries entries).length_eq]
  have hlength : (entries.map Prod.fst).length = entries.length := List.length_map _
  have hsub := List.dedup_sublist (entries.map Prod.fst)
  rw [hsize, ← hlength]
  refine ⟨hsub.length_le, fun hlength => ?_, fun hnodup => ?_⟩
  · exact List.dedup_eq_self.mp (hsub.eq_of_length hlength)
  · rw [hnodup.dedup]

end Table

end ShardStore
