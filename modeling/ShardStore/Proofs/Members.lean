import Mathlib.Data.List.Perm.Basic
import ShardStore.Document
import ShardStore.Proofs.Calls.Whole
import ShardStore.Proofs.Encodings
import ShardStore.Proofs.Tables

/-!
# Members of an encoded store

Encoding goes through the entries one by one and stops at the first refusal
(`encodeMembers_eq_error_iff`). Where no entry refuses it makes one member of each
(`encodeMembers_eq_ok_iff`). The value form of entries with different keys is that of the table
that they make, whatever their order (`Table.object?_ofEntries`).
-/

namespace ShardStore

variable {V : Type} {form : Form} {encode : V → Encoding} {entries : List (String × V)}
  {members : List (String × Json)}

/-- A member that stands for an entry in a form. -/
def Encoded (form : Form) (encode : V → Encoding) (entry : String × V) (member : String × Json) :
    Prop :=
  member.1 = entry.1 ∧ (encode entry.2).write form = .ok member.2

theorem encodeMembers_cons (form : Form) (encode : V → Encoding) (entry : String × V)
    (rest : List (String × V)) :
    encodeMembers form encode (entry :: rest) =
      match (encode entry.2).write form with
      | .ok value => (encodeMembers form encode rest).map fun members => (entry.1, value) :: members
      | .error message => .error (.ofText message) := by
  rw [encodeMembers, List.mapM_cons]
  cases (encode entry.2).write form with
  | ok value => rw [← encodeMembers]; cases encodeMembers form encode rest <;> rfl
  | error message => rfl

/-- Encoding asks the entries in the order in which they are listed shard by shard. -/
theorem Program.run_writtenMembers {σ S : Type} {n : Nat} {mode : Threading}
    {store : Store σ V n} {me : ThreadId} (h : ∀ i, store.Admits me i .shared) (form : Form)
    (encode : V → Encoding) (own : S) :
    (Program.writtenMembers form encode : Program mode S V _).run me store own =
      (.returned (encodeMembers form encode store.entries), store.requestAll (List.finRange n),
        own) := by
  rw [Program.writtenMembers, bind_eq, run_bind, snapshot, run_ask, Process.run_snapshot h]
  rfl

/-- Encoding succeeds exactly with one member for each entry, in order. -/
theorem encodeMembers_eq_ok_iff :
    encodeMembers form encode entries = .ok members ↔
      List.Forall₂ (Encoded form encode) entries members := by
  induction entries generalizing members with
  | nil =>
    rw [List.forall₂_nil_left_iff]
    exact ⟨fun h => by cases h; rfl, fun h => by rw [h]; rfl⟩
  | cons entry rest ih =>
    rw [encodeMembers_cons, List.forall₂_cons_left_iff]
    constructor
    · intro h
      cases hvalue : (encode entry.2).write form with
      | error message => rw [hvalue] at h; cases h
      | ok json =>
        cases hrest : encodeMembers form encode rest with
        | error error => rw [hvalue, hrest] at h; cases h
        | ok others =>
          rw [hvalue, hrest] at h
          cases h
          exact ⟨(entry.1, json), others, ⟨rfl, hvalue⟩, ih.mp hrest, rfl⟩
    · rintro ⟨⟨key, json⟩, others, ⟨rfl, hvalue⟩, hrest, rfl⟩
      rw [hvalue, ih.mpr hrest]
      rfl

/-- Every entry becomes a member with the same key. -/
theorem keys_of_encodeMembers (h : encodeMembers form encode entries = .ok members) :
    members.map Prod.fst = entries.map Prod.fst := by
  induction encodeMembers_eq_ok_iff.mp h with
  | nil => rfl
  | cons hmember hrest ih =>
    rw [List.map_cons, List.map_cons, hmember.1, ih (encodeMembers_eq_ok_iff.mpr hrest)]

/-- An entry whose value can be written in a form. -/
def Encodable (form : Form) (encode : V → Encoding) (entry : String × V) : Prop :=
  ∃ json, (encode entry.2).write form = .ok json

/-- Encoding fails exactly with the refusal of the first entry that refuses. -/
theorem encodeMembers_eq_error_iff {refusal : Refusal} :
    encodeMembers form encode entries = .error refusal ↔
      ∃ front key value back message, entries = front ++ (key, value) :: back ∧
        (∀ entry ∈ front, Encodable form encode entry) ∧
        (encode value).write form = .error message ∧ refusal = .ofText message := by
  induction entries with
  | nil =>
    constructor
    · intro h
      cases h
    · rintro ⟨front, key, value, back, message, hsplit, -⟩
      exact absurd hsplit (by simp)
  | cons entry rest ih =>
    obtain ⟨key, value⟩ := entry
    rw [encodeMembers_cons]
    cases hvalue : (encode value).write form with
    | error message =>
      constructor
      · intro h
        cases h
        exact ⟨[], key, value, rest, message, rfl, by simp, hvalue, rfl⟩
      · rintro ⟨front, key', value', back, message', hsplit, hfront, hrefuses, rfl⟩
        cases front with
        | nil =>
          cases hsplit
          rw [hvalue] at hrefuses
          cases hrefuses
          rfl
        | cons first front =>
          cases hsplit
          obtain ⟨json, hjson⟩ := hfront _ List.mem_cons_self
          rw [hvalue] at hjson
          cases hjson
    | ok json =>
      have hrest : ((encodeMembers form encode rest).map fun members => (key, json) :: members) =
          .error refusal ↔ encodeMembers form encode rest = .error refusal := by
        cases encodeMembers form encode rest <;> simp [Except.map]
      refine hrest.trans (ih.trans ⟨?_, ?_⟩)
      · rintro ⟨front, key', value', back, message, rfl, hfront, hrefuses, rfl⟩
        refine ⟨(key, value) :: front, key', value', back, message, rfl, ?_, hrefuses, rfl⟩
        exact List.forall_mem_cons.mpr ⟨⟨json, hvalue⟩, hfront⟩
      · rintro ⟨front, key', value', back, message, hsplit, hfront, hrefuses, rfl⟩
        cases front with
        | nil =>
          cases hsplit
          rw [hvalue] at hrefuses
          cases hrefuses
        | cons first front =>
          cases hsplit
          exact ⟨front, key', value', back, message, rfl,
            fun entry hentry => hfront entry (List.mem_cons_of_mem _ hentry), hrefuses, rfl⟩

/-- Encoding succeeds exactly where no entry refuses. -/
theorem exists_members_iff :
    (∃ members, encodeMembers form encode entries = .ok members) ↔
      ∀ entry ∈ entries, Encodable form encode entry := by
  constructor
  · rintro ⟨members, hmembers⟩
    induction encodeMembers_eq_ok_iff.mp hmembers with
    | nil => exact List.forall_mem_nil _
    | @cons entry member _ _ hmember hrest ih =>
      exact List.forall_mem_cons.mpr ⟨⟨member.2, hmember.2⟩, ih (encodeMembers_eq_ok_iff.mpr hrest)⟩
  · intro hall
    cases hmembers : encodeMembers form encode entries with
    | ok members => exact ⟨members, rfl⟩
    | error refusal =>
      obtain ⟨front, key, value, back, message, rfl, -, hrefuses, -⟩ :=
        encodeMembers_eq_error_iff.mp hmembers
      obtain ⟨json, hjson⟩ := hall (key, value) (by simp)
      rw [hrefuses] at hjson
      cases hjson

/-- A table of members looks up what the table of the entries has, encoded. -/
theorem lookup_ofEntries_members (h : List.Forall₂ (Encoded form encode) entries members)
    (key : String) (json : Json) :
    (Table.ofEntries members)[key]? = some json ↔
      ∃ value, (Table.ofEntries entries)[key]? = some value ∧
        (encode value).write form = .ok json := by
  have hadd : ∀ (table : Table V) (table' : Table Json),
      (table'[key]? = some json ↔
        ∃ value, table[key]? = some value ∧ (encode value).write form = .ok json) →
      ((table'.addAll members)[key]? = some json ↔
        ∃ value, (table.addAll entries)[key]? = some value ∧
          (encode value).write form = .ok json) := by
    induction h with
    | nil => exact fun table table' htable => htable
    | @cons entry member entries members hmember _ ih =>
      intro table table' htable
      refine ih (table.insert entry.1 entry.2) (table'.insert member.1 member.2) ?_
      rw [Table.lookup_insert, Table.lookup_insert, hmember.1]
      by_cases hkey : entry.1 = key
      · simp [hkey, hmember.2]
      · simpa only [if_neg hkey] using htable
  exact hadd ∅ ∅ (by simp)

/-! ## The value form of a table -/

/-- The object of a table's values, each written on its own; none where one of them refuses. -/
def Table.object? (encode : V → Encoding) (table : Table V) : Option Json :=
  let written := table.filterMap fun _ value => ((encode value).write .value).toOption
  if written.size = table.size then some (.obj written.toList) else none

theorem toOption_eq_some_iff {α ε : Type} {result : Except ε α} {a : α} :
    result.toOption = some a ↔ result = .ok a := by
  cases result <;> simp [Except.toOption]

/-- Entries with different keys have the value form of the table that they make. -/
theorem Table.object?_ofEntries (hkeys : (entries.map Prod.fst).Nodup) :
    (ofEntries entries).object? encode =
      ((encodeMembers .value encode entries).map Form.value.object).toOption := by
  have hsize : ((ofEntries entries).filterMap fun _ value =>
        ((encode value).write .value).toOption).size = (ofEntries entries).size ↔
      ∀ entry ∈ entries, Encodable .value encode entry := by
    rw [Std.ExtTreeMap.size_filterMap_eq_size_iff]
    constructor
    · rintro h ⟨key, value⟩ hentry
      have hlookup := (lookup_ofEntries hkeys).mpr hentry
      obtain ⟨json, hjson⟩ := Option.isSome_iff_exists.mp
        (h key (Std.ExtTreeMap.mem_iff_isSome_getElem?.mpr (by rw [hlookup]; rfl)))
      rw [toOption_eq_some_iff, Std.ExtTreeMap.getElem_eq_get_getElem?] at hjson
      simp only [hlookup, Option.get_some] at hjson
      exact ⟨json, hjson⟩
    · intro h key hkey
      have hentry := (lookup_ofEntries hkeys).mp
        (Std.ExtTreeMap.getElem?_eq_some_getElem hkey)
      obtain ⟨json, hjson⟩ := h _ hentry
      exact Option.isSome_iff_exists.mpr ⟨json, toOption_eq_some_iff.mpr hjson⟩
  rw [object?]
  cases hmembers : encodeMembers .value encode entries with
  | ok members =>
    have hwritten : ((ofEntries entries).filterMap fun _ value =>
        ((encode value).write .value).toOption) = ofEntries members := by
      refine ext_getElem? fun key => Option.ext fun json => ?_
      rw [Std.ExtTreeMap.getElem?_filterMap', Option.bind_eq_some_iff,
        lookup_ofEntries_members (encodeMembers_eq_ok_iff.mp hmembers)]
      simp only [toOption_eq_some_iff]
    rw [if_pos (hsize.mpr (exists_members_iff.mp ⟨members, hmembers⟩)), hwritten]
    rfl
  | error refusal =>
    rw [if_neg]
    · rfl
    · intro hall
      obtain ⟨members, hok⟩ := exists_members_iff.mpr (hsize.mp hall)
      rw [hmembers] at hok
      cases hok

end ShardStore
