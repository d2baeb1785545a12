import ShardStore.Proofs.Encoders
import ShardStore.Proofs.Json.Building
import ShardStore.Proofs.PlainMap

/-!
# A store comes back from its text

Either text of a store, read again, is an object with a member for each entry, in the order of a
snapshot. Nothing is lost on the way: keys and values come back as they are, and a key that is in
several shards comes back as often. Put into a new store one after another, the members make the
same table of items (`Store.RoundTrips`), since there too the last of equal keys stands.
-/

namespace ShardStore

/-- Entries whose values are plain. -/
def plainEntries (members : List (String × Json)) : List (String × Stored) :=
  members.map fun member => (member.1, .plain member.2)

theorem Stored.write_text_encode_iff {stored : Stored} {value : Json} :
    stored.encode.write .text = .ok value ↔ stored = .plain value := by
  cases stored with
  | plain other => simp [encode, Json.write_text_encoding]
  | refusing message => simp [encode, Encoding.write]

/-- Values that do not refuse are plain. -/
theorem eq_plainEntries_of_encoded {entries : List (String × Stored)}
    {members : List (String × Json)} (h : List.Forall₂ (Encoded .text Stored.encode) entries members) :
    entries = plainEntries members := by
  induction h with
  | nil => rfl
  | @cons entry member entries members hmember _ ih =>
    obtain ⟨key, stored⟩ := entry
    obtain ⟨rfl, hvalue⟩ := hmember
    have hplain : stored = .plain member.2 := Stored.write_text_encode_iff.mp hvalue
    rw [ih, hplain]
    rfl

/-- A store and the members that its texts have. -/
structure Store.RoundTrips {σ : Type} {n : Nat} (store : Store σ Stored n) (mode : Threading)
    (S : Type) (me : ThreadId) (members : List (String × Json)) : Prop where
  /-- The members are the entries, in the order of a snapshot. -/
  snapshot : ∃ snapshot, (Program.snapshot : Program mode S Stored _).Tells me store snapshot ∧
    snapshot.entries.toList = plainEntries members
  /-- Either text is read as an object of these members. -/
  texts : ∀ layout, ∃ text,
    (Program.toJson layout Stored.encode : Program mode S Stored _).TellsOnce me store (.ok text) ∧
      Json.parse? text = some (.obj members)
  /-- Put into a new store, they make the same items. -/
  copies : ∀ {τ : Type} (config : Config τ) (copy : Store τ Stored config.shards),
    config.routing.Stateless → Store.ofConfig config = .ok copy → ∀ own : S, ∃ copied items,
      (Program.setMany (plainEntries members) : Program mode S Stored Unit).run me copy own =
        (.returned (), copied, own) ∧
      (Program.items : Program mode S Stored _).Tells me copied items ∧
      (Program.items : Program mode S Stored _).Tells me store items

/-- A new store that is filled has the items of the entries it was filled with. -/
theorem Store.exists_filled {τ S V : Type} {mode : Threading} {config : Config τ}
    {copy : Store τ V config.shards} (hrouting : config.routing.Stateless)
    (hcopy : Store.ofConfig config = .ok copy) (entries : List (String × V)) (me : ThreadId)
    (own : S) :
    ∃ copied, (Program.setMany entries : Program mode S V Unit).run me copy own =
        (.returned (), copied, own) ∧
      (Program.items : Program mode S V _).Tells me copied (Table.ofEntries entries) := by
  obtain ⟨place, hempty⟩ := exists_represents_of_ofConfig hcopy hrouting
  obtain ⟨copied, hrun, hfilled⟩ := hempty.exists_run_setMany mode me entries own
  have hitems := hfilled.ofEntries_entries
  refine ⟨copied, hrun, ?_⟩
  rw [show Table.ofEntries entries = (∅ : Table V).addAll entries from rfl, ← hitems]
  exact hfilled.atRest.tells_items

/-- **A store comes back from its text.** Whatever its router does and whatever the keys and values
are, a store at rest none of whose values refuses is read back from either text entry by entry. -/
theorem Store.json_round_trip {σ : Type} {n : Nat} {store : Store σ Stored n} (h : store.AtRest)
    (hall : ∀ i, ∀ entry ∈ (store.table i).toList, Encodable .text Stored.encode entry)
    (mode : Threading) (S : Type) (me : ThreadId) :
    ∃ members, store.RoundTrips mode S me members := by
  have htexts : store.TellsTexts Stored.encode mode S me := h.tellsTexts hall
  obtain ⟨members, hencoded, -, htells⟩ := htexts
  have hentries := eq_plainEntries_of_encoded hencoded
  refine ⟨members, ?snapshot, ?texts, ?copies⟩
  case snapshot =>
    refine ⟨{ entries := store.entries.toArray }, h.tells_snapshot, ?_⟩
    rw [hentries]
  case texts =>
    intro layout
    exact ⟨_, htells layout, Json.parse?_text layout (.obj members)⟩
  case copies =>
    intro τ config copy hrouting hcopy own
    obtain ⟨copied, hrun, hitems⟩ := exists_filled hrouting hcopy (plainEntries members) me own
    refine ⟨copied, Table.ofEntries (plainEntries members), hrun, hitems, ?_⟩
    rw [← hentries]
    exact h.tells_items

/-- A key in both of two shards, the empty key, escapes of every kind, empty arrays and objects, and
the least and the greatest number. -/
theorem Store.json_round_trip_nested :
    let config : Config Nat := { shardCount := 2, routing := .custom (Router.cycle [0, 1]) 0 }
    let deep : Json := .arr [
      .obj [("\"", .arr []), ("", .obj []), ("\\\n\x01", .arr [.null, .bool true])],
      .int (-9223372036854775808), .int 18446744073709551615, .str "tab\t and é😀"]
    let fill : Program .single Unit Stored Unit := Program.setMany
      [("", .plain deep), ("", .plain .null), ("a \"\\ b\x07", .plain (.bool false))]
    ∃ store : Store Nat Stored config.shards, Store.ofConfig config = .ok store ∧
      let filled := (fill.run ⟨0, 0⟩ store ()).2.1
      filled.AtRest ∧ filled.entries.map Prod.fst = ["", "a \"\\ b\x07", ""] ∧
        ∃ members, filled.RoundTrips .single Unit ⟨0, 0⟩ members := by
  intro config deep fill
  obtain ⟨store, hstore⟩ : ∃ store : Store Nat Stored config.shards,
      Store.ofConfig config = .ok store := ⟨_, rfl⟩
  have hinside : store.Inside ⟨0, 0⟩ [] := inside_nil_iff.mpr (atRest_of_ofConfig hstore)
  have hfilled := inside_nil_iff.mp (fill.keeps_process.run_inside hinside ()).2.1
  refine ⟨store, hstore, hfilled, ?_, json_round_trip hfilled ?_ .single Unit ⟨0, 0⟩⟩
  · cases hstore
    decide +kernel
  · refine encodes_iff.mpr ?_
    cases hstore
    decide +kernel

end ShardStore
