import ShardStore.Proofs.Members
import ShardStore.Proofs.Refusals
import ShardStore.Proofs.Views
import ShardStore.Stored

/-!
# The encoders agree

A store is encoded in three ways, to a text in either layout and to a value. All three read the same
snapshot and ask the same entries in the same order, and each tells of the first entry, in the
lowest shard, that refuses (`Store.Refuses`). An entry refuses the two layouts alike. It refuses
the value where it refuses the texts, and also where it has an integer that a JSON value does not
hold, so on a store without such integers all three succeed or tell the same
(`Store.encoders_agree`).

They differ in what they make of a key that is in several shards. The texts have a member for each
entry, as listed shard by shard; the value has one member for each key, with what the last shard
has, as in `Program.items`.
-/

namespace ShardStore

/-! ## The three encoders -/

section

variable {σ S V : Type} {n : Nat} {mode : Threading} {store : Store σ V n} {me : ThreadId}

/-- A program tells its caller a value, after one request for the lock of each shard, and that is
all that it leaves behind. -/
def Program.TellsOnce {α : Type} (program : Program mode S V α) (me : ThreadId)
    (store : Store σ V n) (value : α) : Prop :=
  ∀ own, ∃ after, program.run me store own = (.returned value, after, own) ∧
    after.hasher = store.hasher ∧ after.routing = store.routing ∧
    ∀ i, after.shard i =
      { store.shard i with
        tally.acquisitions := (store.shard i).tally.acquisitions + 1 }

theorem Program.tellsOnce_of_run {α : Type} {program : Program mode S V α} {value : α}
    (hrun : ∀ own, program.run me store own =
      (.returned value, store.requestAll (List.finRange n), own)) :
    program.TellsOnce me store value :=
  fun own => ⟨_, hrun own, store.hasher_requestAll _, store.routing_requestAll _,
    store.shard_requestAll_finRange⟩

namespace Program

theorem tellsOnce_toJson (h : store.AtRest) (layout : Json.Layout) {encode : V → Encoding}
    {result : Except Refusal (List (String × Json))}
    (hresult : encodeMembers .text encode store.entries = result) :
    (toJson layout encode : Program mode S V _).TellsOnce me store
      ((result.mapError .encode).map fun members => (Json.obj members).text layout) := by
  apply tellsOnce_of_run
  intro own
  rw [toJson, bind_eq, run_bind, members, bind_eq, run_bind,
    run_writtenMembers fun i => h.admits me i .shared, hresult]
  rfl

theorem tellsOnce_toValue (h : store.AtRest) {encode : V → Encoding}
    {result : Except Refusal (List (String × Json))}
    (hresult : encodeMembers .value encode store.entries = result) :
    (toValue encode : Program mode S V _).TellsOnce me store
      (result.map fun members => .obj (Table.ofEntries members).toList) := by
  apply tellsOnce_of_run
  intro own
  rw [toValue, bind_eq, run_bind, run_writtenMembers fun i => h.admits me i .shared, hresult]
  rfl

end Program

/-- A key is listed once for each shard that has it. -/
theorem Store.count_keys_entries (store : Store σ V n) (key : String) :
    (store.entries.map Prod.fst).count key =
      (List.finRange n).countP fun i => (store.table i).contains key := by
  rw [← flatMap_keys]
  induction List.finRange n with
  | nil => rfl
  | cons i rest ih =>
    rw [List.flatMap_cons, List.count_append, ih, List.countP_cons, Nat.add_comm]
    congr 1
    by_cases hkey : key ∈ store.table i
    · rw [List.count_eq_one_of_mem Std.ExtTreeMap.nodup_keys (Std.ExtTreeMap.mem_keys.mpr hkey)]
      simp [hkey]
    · rw [List.count_eq_zero_of_not_mem (mt Std.ExtTreeMap.mem_keys.mp hkey)]
      simp [hkey]

/-- Where lists stand one after another, a split of them all is a split of one of them. -/
theorem exists_split_of_flatMap {ι α : Type} {f : ι → List α} {indices : List ι}
    {front back : List α} {a : α} (h : indices.flatMap f = front ++ a :: back) :
    ∃ before i after front' back', indices = before ++ i :: after ∧ f i = front' ++ a :: back' ∧
      front = before.flatMap f ++ front' := by
  induction indices generalizing front with
  | nil => exact absurd h (by simp)
  | cons i rest ih =>
    rw [List.flatMap_cons, List.append_eq_append_iff] at h
    rcases h with ⟨front', rfl, hrest⟩ | ⟨tail, hfirst, hrest⟩
    · obtain ⟨before, j, after, front'', back', rfl, hj, rfl⟩ := ih hrest
      refine ⟨i :: before, j, after, front'', back', rfl, hj, ?_⟩
      rw [List.flatMap_cons, List.append_assoc]
    · cases tail with
      | nil =>
        rw [List.append_nil] at hfirst
        obtain ⟨before, j, after, front', back', rfl, hj, hfront⟩ :=
          ih (show rest.flatMap f = [] ++ a :: back from hrest.symm)
        refine ⟨i :: before, j, after, front', back', rfl, hj, ?_⟩
        rw [List.flatMap_cons, List.append_assoc, ← hfront, List.append_nil, hfirst]
      | cons b tail =>
        cases hrest
        exact ⟨[], i, rest, front, tail, rfl, hfirst, rfl⟩

/-- The entries before one of them are those of the lower shards and those before it in its own. -/
theorem Store.exists_shard_of_split {front back : List (String × V)} {entry : String × V}
    (h : store.entries = front ++ entry :: back) :
    ∃ i front' back', (store.table i).toList = front' ++ entry :: back' ∧
      (∀ other ∈ front', other ∈ front) ∧
      ∀ j, j < i → ∀ other ∈ (store.table j).toList, other ∈ front := by
  obtain ⟨before, i, after, front', back', hindices, htable, rfl⟩ := exists_split_of_flatMap h
  refine ⟨i, front', back', htable, fun other hother => List.mem_append_right _ hother, ?_⟩
  intro j hj other hother
  have hbefore := (mem_iff_of_finRange_eq hindices j).1.mpr hj
  exact List.mem_append_left _ (List.mem_flatMap.mpr ⟨j, hbefore, hother⟩)

/-! ## The statement -/

/-- Every stored value can be written in a form. -/
def Store.Encodes (store : Store σ V n) (form : Form) (encode : V → Encoding) : Prop :=
  ∀ i, ∀ entry ∈ (store.table i).toList, Encodable form encode entry

/-- A JSON value holds every integer of every stored value. -/
def Store.Fits (store : Store σ V n) (encode : V → Encoding) : Prop :=
  ∀ i, ∀ entry ∈ (store.table i).toList, (encode entry.2).fits = true

/-- Shard `i` is the lowest one that has an entry that refuses a form, and the first such entry in
it refuses with `message`. -/
def Store.Refuses (store : Store σ V n) (form : Form) (encode : V → Encoding) (i : Fin n)
    (message : String) : Prop :=
  ∃ front key value back, (store.table i).toList = front ++ (key, value) :: back ∧
    (encode value).write form = .error message ∧
    (∀ entry ∈ front, Encodable form encode entry) ∧
    ∀ j, j < i → ∀ entry ∈ (store.table j).toList, Encodable form encode entry

/-- The texts have a member for each entry, as listed shard by shard. -/
def Store.TellsTexts (store : Store σ V n) (encode : V → Encoding) (mode : Threading) (S : Type)
    (me : ThreadId) : Prop :=
  ∃ members, List.Forall₂ (Encoded .text encode) store.entries members ∧
    (∀ key, (members.map Prod.fst).count key =
      (List.finRange n).countP fun i => (store.table i).contains key) ∧
    ∀ layout, (Program.toJson layout encode : Program mode S V _).TellsOnce me store
      (.ok ((Json.obj members).text layout))

/-- The value has the members of the items, each once. -/
def Store.TellsValue (store : Store σ V n) (encode : V → Encoding) (mode : Threading) (S : Type)
    (me : ThreadId) : Prop :=
  ∃ items members, (Program.items : Program mode S V (Table V)).Tells me store items ∧
    (Program.toValue encode : Program mode S V _).TellsOnce me store (.ok (.obj members)) ∧
    (members.map Prod.fst).Nodup ∧
    (∀ (key : String) json, (key, json) ∈ members ↔
      ∃ value, items[key]? = some value ∧ (encode value).write .value = .ok json) ∧
    ∀ (key : String) value, items[key]? = some value ↔
      ∃ i, (store.table i)[key]? = some value ∧ ∀ j, i < j → (store.table j)[key]? = none

/-- What the three encoders tell of a store. -/
structure Store.EncodersAgree (store : Store σ V n) (encode : V → Encoding) (mode : Threading)
    (S : Type) (me : ThreadId) : Prop where
  /-- A form that no stored value refuses is told in full. -/
  texts : store.Encodes .text encode → store.TellsTexts encode mode S me
  value : store.Encodes .value encode → store.TellsValue encode mode S me
  /-- Of a form that some stored value refuses, the first refusal is told. -/
  refuses : ∀ form, ¬store.Encodes form encode → ∃ i message, store.Refuses form encode i message
  textsRefused : ∀ i message, store.Refuses .text encode i message →
    ∀ layout, (Program.toJson layout encode : Program mode S V _).TellsOnce me store
      (.error (.encode (.ofText message)))
  valueRefused : ∀ i message, store.Refuses .value encode i message →
    (Program.toValue encode : Program mode S V _).TellsOnce me store (.error (.ofText message))
  /-- What is shown of a refusal is its message, but for a position at its end. -/
  shown : ∀ message, Refusal.Shown message (Refusal.ofText message).display
  /-- The value is refused where the texts are, and for integers that a JSON value does not hold. -/
  both : store.Encodes .value encode ↔ store.Encodes .text encode ∧ store.Fits encode
  reasons : ∀ i, ∀ entry ∈ (store.table i).toList, ∀ message,
    (encode entry.2).write .value = .error message →
      (encode entry.2).write .text = .error message ∨
        message = Encoding.outOfRange ∧ (encode entry.2).fits = false
  /-- Without such integers the three tell the same refusal. -/
  same : store.Fits encode → ∀ i message,
    store.Refuses .text encode i message ↔ store.Refuses .value encode i message

namespace Store

variable {form : Form} {encode : V → Encoding}

theorem mem_entries {entry : String × V} :
    entry ∈ store.entries ↔ ∃ i, entry ∈ (store.table i).toList := by
  simp [entries]

/-- The forms of an entry without other integers than a JSON value holds are refused alike. -/
theorem write_eq_error_iff_of_fits {encoding : Encoding} (h : encoding.fits = true)
    {message : String} :
    encoding.write .text = .error message ↔ encoding.write .value = .error message := by
  rw [Encoding.write_value_of_fits h]
  cases encoding.write .text <;> simp [Except.map]

theorem encodable_iff_of_fits {entry : String × V} (h : (encode entry.2).fits = true) :
    Encodable .text encode entry ↔ Encodable .value encode entry :=
  (and_iff_left h).symm.trans Encoding.exists_write_value_iff.symm

/-- On a store that fits, the same entry refuses either form first. -/
theorem Fits.refuses_iff (h : store.Fits encode) {i : Fin n} {message : String} :
    store.Refuses .text encode i message ↔ store.Refuses .value encode i message := by
  refine exists_congr fun front => exists_congr fun key => exists_congr fun value =>
    exists_congr fun back => and_congr_right fun htable => ?_
  have hmem (entry : String × V) (hentry : entry ∈ front ++ (key, value) :: back) :
      (encode entry.2).fits = true := h i entry (htable ▸ hentry)
  refine and_congr ?_ (and_congr ?_ ?_)
  · exact write_eq_error_iff_of_fits (hmem _ (List.mem_append_right _ List.mem_cons_self))
  · exact forall₂_congr fun entry hentry =>
      encodable_iff_of_fits (hmem entry (List.mem_append_left _ hentry))
  · exact forall₂_congr fun j _ => forall₂_congr fun entry hentry =>
      encodable_iff_of_fits (h j entry hentry)

theorem encodes_value_iff :
    store.Encodes .value encode ↔ store.Encodes .text encode ∧ store.Fits encode := by
  refine ⟨fun h => ⟨fun i entry hentry => ?_, fun i entry hentry => ?_⟩,
    fun h i entry hentry => ?_⟩
  · exact (Encoding.exists_write_value_iff.mp (h i entry hentry)).1
  · exact (Encoding.exists_write_value_iff.mp (h i entry hentry)).2
  · exact Encoding.exists_write_value_iff.mpr ⟨h.1 i entry hentry, h.2 i entry hentry⟩

/-- A form that every stored value can be written in has members. -/
theorem Encodes.exists_members (h : store.Encodes form encode) :
    ∃ members, encodeMembers form encode store.entries = .ok members := by
  refine exists_members_iff.mpr fun entry hentry => ?_
  obtain ⟨i, hi⟩ := mem_entries.mp hentry
  exact h i entry hi

theorem exists_refuses (h : ¬store.Encodes form encode) :
    ∃ i message, store.Refuses form encode i message := by
  cases hmembers : encodeMembers form encode store.entries with
  | ok members =>
    refine absurd (fun i entry hentry => ?_) h
    exact exists_members_iff.mp ⟨members, hmembers⟩ entry (mem_entries.mpr ⟨i, hentry⟩)
  | error refusal =>
    obtain ⟨front, key, value, back, message, hsplit, hfront, hrefuses, -⟩ :=
      encodeMembers_eq_error_iff.mp hmembers
    obtain ⟨i, front', back', htable, hbefore, hlower⟩ := exists_shard_of_split hsplit
    exact ⟨i, message, front', key, value, back', htable, hrefuses,
      fun entry hentry => hfront entry (hbefore entry hentry),
      fun j hj entry hentry => hfront entry (hlower j hj entry hentry)⟩

/-- The entries in front of one of them, shard by shard. -/
theorem entries_eq_of_split {i : Fin n} {front back : List (String × V)} {entry : String × V}
    (h : (store.table i).toList = front ++ entry :: back) :
    ∃ before after, store.entries = before ++ entry :: after ∧
      ∀ other ∈ before, other ∈ front ∨ ∃ j, j < i ∧ other ∈ (store.table j).toList := by
  obtain ⟨below, above, hshards⟩ := List.append_of_mem (List.mem_finRange i)
  refine ⟨below.flatMap (fun j => (store.table j).toList) ++ front,
    back ++ above.flatMap fun j => (store.table j).toList, ?_, fun other hother => ?_⟩
  · rw [entries, hshards, List.flatMap_append, List.flatMap_cons, h]
    simp only [List.append_assoc, List.cons_append]
  · rcases List.mem_append.mp hother with hbelow | hfront
    · obtain ⟨j, hj, hmem⟩ := List.mem_flatMap.mp hbelow
      exact .inr ⟨j, (mem_iff_of_finRange_eq hshards j).1.mp hj, hmem⟩
    · exact .inl hfront

/-- The refusal that encoding stops at. -/
theorem Refuses.encodeMembers_eq {i : Fin n} {message : String}
    (h : store.Refuses form encode i message) :
    encodeMembers form encode store.entries = .error (.ofText message) := by
  obtain ⟨front, key, value, back, htable, hrefuses, hfront, hlower⟩ := h
  obtain ⟨before, after, hentries, hbefore⟩ := entries_eq_of_split htable
  refine encodeMembers_eq_error_iff.mpr
    ⟨before, key, value, after, message, hentries, fun entry hentry => ?_, hrefuses, rfl⟩
  rcases hbefore entry hentry with hmem | ⟨j, hj, hmem⟩
  · exact hfront entry hmem
  · exact hlower j hj entry hmem

theorem AtRest.tellsTexts (h : store.AtRest) (hall : store.Encodes .text encode) :
    store.TellsTexts encode mode S me := by
  obtain ⟨members, hmembers⟩ := hall.exists_members
  refine ⟨members, encodeMembers_eq_ok_iff.mp hmembers, fun key => ?_, fun layout => ?_⟩
  · rw [keys_of_encodeMembers hmembers, store.count_keys_entries]
  · exact Program.tellsOnce_toJson h layout hmembers

theorem AtRest.tellsValue (h : store.AtRest) (hall : store.Encodes .value encode) :
    store.TellsValue encode mode S me := by
  obtain ⟨members, hmembers⟩ := hall.exists_members
  refine ⟨Table.ofEntries store.entries, (Table.ofEntries members).toList, h.tells_items, ?_,
    Table.keys_toList_nodup _, fun key json => ?_, fun key value => lookup_ofEntries_entries⟩
  · exact Program.tellsOnce_toValue h hmembers
  · rw [Table.mem_toList]
    exact lookup_ofEntries_members (encodeMembers_eq_ok_iff.mp hmembers) key json

/-- **The encoders agree.** Whatever its router does, a store at rest is written as a text in either
layout if no value refuses the text, and as a value if none refuses the value, and otherwise the
first refusal is told. The value is refused where the texts are; beyond that it is refused only for
integers that no JSON value holds. -/
theorem encoders_agree (h : store.AtRest) (encode : V → Encoding) (mode : Threading) (S : Type)
    (me : ThreadId) : store.EncodersAgree encode mode S me where
  texts := h.tellsTexts
  value := h.tellsValue
  refuses _ := exists_refuses
  textsRefused _ _ hrefuses layout := Program.tellsOnce_toJson h layout hrefuses.encodeMembers_eq
  valueRefused _ _ hrefuses := Program.tellsOnce_toValue h hrefuses.encodeMembers_eq
  shown := Refusal.shown_ofText
  both := encodes_value_iff
  reasons _ _ _ _ := Encoding.write_text_or_outOfRange
  same hfits _ _ := hfits.refuses_iff

/-- Whether every stored value can be written can be computed. -/
theorem encodes_iff :
    store.Encodes form encode ↔
      ∀ i, (store.table i).toList.all (fun entry => ((encode entry.2).write form).isOk) = true := by
  simp only [List.all_eq_true]
  refine forall_congr' fun i => forall₂_congr fun entry hentry => ?_
  cases hwrite : (encode entry.2).write form <;>
    simp [Encodable, hwrite, Except.isOk, Except.toBool]

/-- A store with one shard that has one entry. -/
def single (key : String) (value : V) : Store Unit V 1 where
  shards := #v[{ table := (∅ : Table V).insert key value }]
  hasher := .fx
  routing := .modulo
  pos := by decide
  fits := by decide

theorem atRest_single (key : String) (value : V) : (single key value).AtRest := fun i => by
  rw [Fin.fin_one_eq_zero i]
  exact ⟨rfl, rfl⟩

/-- A place in line zero is not shown, so the first refusal is not shown as it is. And no value
refuses the second store, but only its texts can be made. -/
theorem encoders_differ_on_line_zero_and_wide_integers :
    let refusing := single "k" (Stored.refusing "x at line 0 column 5")
    let wide := single "k" (2 ^ 64 : Int)
    (refusing.AtRest ∧
      ∃ refusal : Refusal,
        (∀ layout, (Program.toJson layout Stored.encode : Program .single Unit Stored _).TellsOnce
          ⟨0, 0⟩ refusing (.error (.encode refusal))) ∧
        (Program.toValue Stored.encode : Program .single Unit Stored _).TellsOnce
          ⟨0, 0⟩ refusing (.error refusal) ∧
        refusal.display = "x" ∧ refusal.display ≠ "x at line 0 column 5") ∧
    wide.AtRest ∧
      (∀ layout, ∃ text, (Program.toJson layout Encoding.int : Program .single Unit Int _).TellsOnce
        ⟨0, 0⟩ wide (.ok text)) ∧
      (Program.toValue Encoding.int : Program .single Unit Int _).TellsOnce
        ⟨0, 0⟩ wide (.error { message := "number out of range" }) := by
  intro refusing wide
  have hrest := atRest_single "k" (Stored.refusing "x at line 0 column 5")
  have hrest' := atRest_single "k" (2 ^ 64 : Int)
  have hrefused (form : Form) :
      encodeMembers form Stored.encode refusing.entries = .error { message := "x" } := by
    cases form <;> rfl
  have htext : encodeMembers .text Encoding.int wide.entries = .ok [("k", .int (2 ^ 64))] := rfl
  have hvalue : encodeMembers .value Encoding.int wide.entries =
      .error { message := "number out of range" } := rfl
  refine ⟨⟨hrest, { message := "x" }, fun layout => ?_, ?_, by decide, by decide⟩, hrest',
    fun layout => ⟨_, Program.tellsOnce_toJson hrest' layout htext⟩, ?_⟩
  · exact Program.tellsOnce_toJson hrest layout (hrefused .text)
  · exact Program.tellsOnce_toValue hrest (hrefused .value)
  · exact Program.tellsOnce_toValue hrest' hvalue

/-- A router that deals out shards in turn puts one key into both of two shards. Then a shard gets
an integer that only a text holds, and later each shard gets a value that refuses. -/
theorem encoders_agree_key_in_two_shards :
    let config : Config Nat := { shardCount := 2, routing := .custom (Router.cycle [0, 1]) 0 }
    let fill : Program .single Unit Stored Unit := Program.setMany
      [("k", .plain .null), ("k", .plain (.bool true)), ("a", .plain (.int 1))]
    let widen : Program .single Unit Stored Unit := Program.setMany
      [("w", .plain (.arr [.int (2 ^ 64)]))]
    let spoil : Program .single Unit Stored Unit := Program.setMany
      [("z", .refusing "late at line 007 column 5"), ("b", .refusing "no")]
    ∃ store : Store Nat Stored config.shards, Store.ofConfig config = .ok store ∧
      let filled := (fill.run ⟨0, 0⟩ store ()).2.1
      let widened := (widen.run ⟨0, 0⟩ filled ()).2.1
      let spoilt := (spoil.run ⟨0, 0⟩ widened ()).2.1
      (filled.AtRest ∧ filled.Encodes .value Stored.encode ∧
        filled.EncodersAgree Stored.encode .single Unit ⟨0, 0⟩) ∧
      (widened.AtRest ∧ widened.Encodes .text Stored.encode ∧
        ¬widened.Encodes .value Stored.encode ∧
        widened.EncodersAgree Stored.encode .single Unit ⟨0, 0⟩) ∧
      spoilt.AtRest ∧ ¬spoilt.Encodes .text Stored.encode ∧
        spoilt.EncodersAgree Stored.encode .single Unit ⟨0, 0⟩ := by
  intro config fill widen spoil
  obtain ⟨store, hstore⟩ : ∃ store : Store Nat Stored config.shards,
      Store.ofConfig config = .ok store := ⟨_, rfl⟩
  have hinside : store.Inside ⟨0, 0⟩ [] := inside_nil_iff.mpr (atRest_of_ofConfig hstore)
  have hfilled := (fill.keeps_process.run_inside hinside ()).2.1
  have hwidened := (widen.keeps_process.run_inside hfilled ()).2.1
  have hspoilt := (spoil.keeps_process.run_inside hwidened ()).2.1
  refine ⟨store, hstore,
    ⟨inside_nil_iff.mp hfilled, ?_, encoders_agree (inside_nil_iff.mp hfilled) _ _ _ _⟩,
    ⟨inside_nil_iff.mp hwidened, ?_, ?_, encoders_agree (inside_nil_iff.mp hwidened) _ _ _ _⟩,
    inside_nil_iff.mp hspoilt, ?_, encoders_agree (inside_nil_iff.mp hspoilt) _ _ _ _⟩
  all_goals
    rw [encodes_iff]
    cases hstore
    decide +kernel

end Store

end

end ShardStore
