import ShardStore.Proofs.Calls.Whole
import ShardStore.Proofs.Members
import ShardStore.Proofs.Placement
import ShardStore.Routing.Stock

/-!
# A store answers like one plain map

Where the router's answer depends on the hash and the number of shards alone, a store is one map in
disguise: every call answers what it would answer on one table, and the shards' tables together are
that table. Which shards there are and how keys are spread over them shows only in the order in
which keys and entries are listed.

## Shape of the argument

`Call` lists the calls of a caller outside any callback, `Call.onTable` says what each one does to
one table, and `Call.program` is the same call on a store. `Store.Represents` relates a store to the
table: a key's place holds what the table holds, every other shard holds nothing of it. Each call
keeps the relation and answers alike (`Represents.run_call`), so a session of calls does.
-/

namespace ShardStore

/-! ## Calls on one table -/

/-- What a call tells its caller. -/
inductive Answer (V : Type) where
  | nothing
  | flag (b : Bool)
  | value (held : Option V)
  | stored (value : V)
  | size (count : Nat)
  | keys (list : List String)
  | entries (list : List (String × V))
  | items (table : Table V)
  /-- The object that was made; none where a value refused. -/
  | document (object : Option Json)
  /-- The call unwound. -/
  | fault (fault : Fault)

namespace Answer

variable {V : Type}

/-- Two answers that differ at most in the order of a list. -/
inductive Agrees : Answer V → Answer V → Prop where
  | same (answer : Answer V) : Agrees answer answer
  | keys {list list' : List String} (h : list.Perm list') : Agrees (.keys list) (.keys list')
  | entries {list list' : List (String × V)} (h : list.Perm list') :
      Agrees (.entries list) (.entries list')

theorem Agrees.symm {answer answer' : Answer V} (h : Agrees answer answer') :
    Agrees answer' answer := by
  cases h with
  | same => exact .same _
  | keys h => exact .keys h.symm
  | entries h => exact .entries h.symm

theorem Agrees.trans {answer answer' answer'' : Answer V} (h : Agrees answer answer')
    (h' : Agrees answer' answer'') : Agrees answer answer'' := by
  cases h with
  | same => exact h'
  | keys h =>
    cases h' with
    | same => exact .keys h
    | keys h' => exact .keys (h.trans h')
  | entries h =>
    cases h' with
    | same => exact .entries h
    | entries h' => exact .entries (h.trans h')

/-- Answers that agree with the same answers agree with each other. -/
theorem agree_of_agree {answers answers' answers'' : List (Answer V)}
    (h : List.Forall₂ Agrees answers answers'') (h' : List.Forall₂ Agrees answers' answers'') :
    List.Forall₂ Agrees answers answers' := by
  induction h generalizing answers' with
  | nil => cases h'; exact .nil
  | cons hagrees _ ih =>
    cases h' with
    | cons hagrees' hrest' => exact .cons (hagrees.trans hagrees'.symm) (ih hrest')

/-- A list of keys or of entries names no key twice. -/
def Distinct : Answer V → Prop
  | .keys list => list.Nodup
  | .entries list => (list.map Prod.fst).Nodup
  | _ => True

end Answer

/-- What a keyed call tells its caller. -/
def Keyed.tell {V : Type} : {β : Type} → Keyed V β → β → Answer V
  | _, .set _ _, _ => .nothing
  | _, .setIfAbsent _ _, b => .flag b
  | _, .get _, held => .value held
  | _, .has _, b => .flag b
  | _, .remove _, _ => .nothing
  | _, .pop _, held => .value held

/-- The calls of a caller with variables of type `S`, outside any callback. -/
inductive Call (S V : Type) : Type 1 where
  | keyed {β : Type} (call : Keyed V β)
  | setMany (pairs : List (String × V))
  /-- Combines the old value and the given one, which may change the caller's variables or
  unwind. -/
  | upsert (key : String) (given : V) (combine : Option V → V → S → Except Fault V × S)
  | count
  | isEmpty
  | keys
  | items
  /-- Notes every entry in a callback. -/
  | visit
  /-- Opens a snapshot and reads it to its end. -/
  | drain
  | toValue (encode : V → Encoding)

namespace Call

variable {S V : Type}

/-- What a call answers on one table, and the table and the variables that it leaves. -/
def onTable : Call S V → Table V → S → Answer V × Table V × S
  | .keyed call, table, own => (call.tell (call.answer table), call.after table, own)
  | .setMany pairs, table, own => (.nothing, table.addAll pairs, own)
  | .upsert key given combine, table, own =>
    match combine table[key]? given own with
    | (.ok value, own) => (.stored value, table.insert key value, own)
    | (.error fault, own) => (.fault fault, table, own)
  | .count, table, own => (.size table.size, table, own)
  | .isEmpty, table, own => (.flag (table.size == 0), table, own)
  | .keys, table, own => (.keys table.keys, table, own)
  | .items, table, own => (.items table, table, own)
  | .visit, table, own => (.entries table.toList, table, own)
  | .drain, table, own => (.entries table.toList, table, own)
  | .toValue encode, table, own => (.document (table.object? encode), table, own)

/-- What calls answer on one table, one after another. -/
def allOnTable : List (Call S V) → Table V → S → List (Answer V) × Table V × S
  | [], table, own => ([], table, own)
  | call :: rest, table, own =>
    let (answer, table, own) := call.onTable table own
    let (answers, table, own) := allOnTable rest table own
    (answer :: answers, table, own)

/-- A call on a store. -/
def program {mode : Threading} : Call S V → Program mode S V (Answer V)
  | .keyed call => do
    let b ← Program.ask call.operation
    return call.tell b
  | .setMany pairs => do
    Program.setMany pairs
    return .nothing
  | .upsert key given combine => do
    let (value, _) ← Program.updateWith key fun old => do
      let combined ← Program.modifyOwn (combine old given)
      let value ← Program.ofExcept combined
      return (value, ())
    return .stored value
  | .count => return .size (← Program.count)
  | .isEmpty => return .flag (← Program.isEmpty)
  | .keys => return .keys (← Program.keys)
  | .items => return .items (← Program.items)
  | .visit => do
    let visited ← Program.forEach fun _ _ => return ()
    return .entries (visited.map Prod.fst)
  | .drain => do
    let captured ← Program.snapshot
    return .entries (captured.take (captured.total + 1)).1
  | .toValue encode => do
    let result ← Program.toValue encode
    return .document result.toOption

/-- A call on a store whose fault is caught and told. -/
def answered {mode : Threading} (call : Call S V) : Program mode S V (Answer V) := do
  match ← Program.caught call.program with
  | .ok answer => return answer
  | .error fault => return .fault fault

/-- Calls on a store, one after another. -/
def session {mode : Threading} (calls : List (Call S V)) : Program mode S V (List (Answer V)) :=
  calls.mapM answered

end Call

/-! ## A table spread over shards -/

/-- The store is at rest and holds the entries of one table, each at its key's place and nothing
else. -/
structure Store.Represents {σ V : Type} {n : Nat} (store : Store σ V n) (place : String → Fin n)
    (table : Table V) : Prop where
  atRest : store.AtRest
  places : store.PlacesBy place
  lookup : ∀ i key, (store.table i)[key]? = if place key = i then table[key]? else none

namespace Store.Represents

variable {σ S V β : Type} {mode : Threading} {n : Nat} {store : Store σ V n}
  {place : String → Fin n} {table : Table V}

theorem lookup_place (h : store.Represents place table) (key : String) :
    (store.table (place key))[key]? = table[key]? := by
  rw [h.lookup, if_pos rfl]

/-- A key that a shard holds is at its place. -/
theorem place_eq (h : store.Represents place table) {i : Fin n} {key : String} {value : V}
    (hheld : (store.table i)[key]? = some value) : place key = i := by
  rw [h.lookup] at hheld
  split at hheld
  · assumption
  · cases hheld

/-- Every entry of the table is in some shard, and every entry of a shard is in the table. -/
theorem exists_lookup_iff (h : store.Represents place table) (key : String) (value : V) :
    (∃ i, (store.table i)[key]? = some value) ↔ table[key]? = some value := by
  constructor
  · rintro ⟨i, hheld⟩
    rw [← h.lookup_place, h.place_eq hheld, hheld]
  · exact fun hheld => ⟨place key, (h.lookup_place key).trans hheld⟩

/-- The entries of all shards are the entries of the table, each once. -/
theorem perm_entries (h : store.Represents place table) :
    store.entries.Perm table.toList := by
  refine Table.perm_toList ?_ fun key value => ?_
  · rw [Store.entries, List.nodup_flatMap]
    refine ⟨fun i _ => (store.table i).toList_nodup, (List.nodup_finRange n).imp fun {i j} hij => ?_⟩
    refine List.disjoint_iff_ne.mpr ?_
    rintro ⟨key, value⟩ hi ⟨key', value'⟩ hj heq
    cases heq
    exact hij ((h.place_eq (Table.mem_toList.mp hi)).symm.trans
      (h.place_eq (Table.mem_toList.mp hj)))
  · rw [← h.exists_lookup_iff, Store.entries, List.mem_flatMap]
    simp only [List.mem_finRange, true_and, Table.mem_toList]

theorem entries_keys_nodup (h : store.Represents place table) :
    (store.entries.map Prod.fst).Nodup :=
  (h.perm_entries.map Prod.fst).nodup_iff.mpr table.keys_toList_nodup

/-- The shards' sizes add up to the size of the table. -/
theorem sumOf_size (h : store.Represents place table) :
    sumOf ((List.finRange n).map fun i => (store.table i).size) = table.size := by
  change ((List.finRange n).map fun i => (store.table i).size).sum = table.size
  have hlength := h.perm_entries.length_eq
  rw [Store.entries, List.length_flatMap, Std.ExtTreeMap.length_toList] at hlength
  simpa only [Std.ExtTreeMap.length_toList] using hlength

/-- The keys of all shards are the keys of the table, each once. -/
theorem perm_keys (h : store.Represents place table) :
    ((List.finRange n).flatMap fun i => (store.table i).keys).Perm table.keys := by
  have hkeys := h.perm_entries.map Prod.fst
  rw [Store.entries, List.map_flatMap, Std.ExtTreeMap.map_fst_toList_eq_keys] at hkeys
  simpa only [Std.ExtTreeMap.map_fst_toList_eq_keys] using hkeys

/-- Collected in one table, the entries of all shards are the table. -/
theorem ofEntries_entries (h : store.Represents place table) :
    Table.ofEntries store.entries = table := by
  rw [Table.ofEntries_congr h.perm_entries h.entries_keys_nodup, Table.ofEntries_toList]

/-- Counting requests changes nothing that is represented. -/
theorem requestAll (h : store.Represents place table) (shards : List (Fin n)) :
    (store.requestAll shards).Represents place table where
  atRest := h.atRest.requestAll shards
  places := h.places.congr (store.hasher_requestAll shards) (store.routing_requestAll shards)
  lookup i key := by rw [Store.table_requestAll, h.lookup]

/-- A change of a key's shard that changes this key's value only, and alike in the table. -/
theorem modify (h : store.Represents place table) {key : String} {change : Shard V → Shard V}
    {table' : Table V}
    (hrest : ∀ shard : Shard V, shard.AtRest → (change shard).AtRest)
    (hself : ((change (store.shard (place key))).table)[key]? = table'[key]?)
    (hothers : ∀ k, key ≠ k →
      ((change (store.shard (place key))).table)[k]? = (store.table (place key))[k]? ∧
        table'[k]? = table[k]?) :
    (store.modify (place key) change).Represents place table' where
  atRest i := by
    rw [Store.shard_modify]
    split
    · exact hrest _ (h.atRest i)
    · exact h.atRest i
  places := h.places.congr rfl rfl
  lookup i k := by
    by_cases hi : place key = i
    · subst hi
      rw [Store.table_modify_self]
      by_cases hk : key = k
      · subst hk
        rw [hself, if_pos rfl]
      · rw [(hothers k hk).1, (hothers k hk).2, h.lookup]
    · rw [Store.table_modify_ne _ hi, h.lookup]
      -- The key itself lives elsewhere, so what happened to it does not show in shard `i`.
      by_cases hk : key = k
      · subst hk
        rw [if_neg hi, if_neg hi]
      · rw [(hothers k hk).2]

/-! ## Every call keeps the relation and answers alike -/

/-- A keyed call answers as on the one table. -/
theorem exists_run_keyed (mode : Threading) (h : store.Represents place table) (me : ThreadId)
    (call : Keyed V β)
    (own : S) :
    ∃ store', (call.operation.process : Process mode n S V β).run me store own =
        (.returned (call.answer table), store', own) ∧
      store'.Represents place (call.after table) := by
  obtain ⟨routing, hroute, hplaces⟩ := h.places.exists_route_eq call.key
  set routed : Store σ V n := { store with routing } with hrouted
  have hrep : routed.Represents place table := ⟨h.atRest, hplaces, h.lookup⟩
  obtain ⟨hmark, hlock⟩ := hrep.atRest.admits me (place call.key) call.access
  refine ⟨routed.modify (place call.key) call.onShard, ?_, ?_⟩
  · rw [Process.run_keyed me call hroute hmark hlock, call.answer_congr (hrep.lookup_place call.key)]
  · refine hrep.modify (fun shard hshard => hshard) ?_ fun k hk => ⟨?_, ?_⟩
    · exact call.lookup_after_congr (hrep.lookup_place call.key)
    · exact call.lookup_after_of_ne hk _
    · exact call.lookup_after_of_ne hk _

/-- Inserting pairs one after another adds them to the one table. -/
theorem exists_run_setMany (mode : Threading) (h : store.Represents place table) (me : ThreadId)
    (pairs : List (String × V)) (own : S) :
    ∃ store', (Program.setMany pairs : Program mode S V Unit).run me store own =
        (.returned (), store', own) ∧ store'.Represents place (table.addAll pairs) := by
  induction pairs generalizing store table with
  | nil => exact ⟨store, rfl, h⟩
  | cons pair rest ih =>
    obtain ⟨store₁, hrun₁, hrep₁⟩ :=
      h.exists_run_keyed mode me (.set pair.1 pair.2) own
    obtain ⟨store₂, hrun₂, hrep₂⟩ := ih hrep₁
    refine ⟨store₂, ?_, hrep₂⟩
    have hbody : (Program.setMany (pair :: rest) : Program mode S V Unit) =
        (Program.set pair.1 pair.2).bind fun _ => Program.setMany rest := rfl
    rw [hbody, Program.run_bind, Program.set, Program.run_ask]
    simp only [Keyed.operation] at hrun₁
    simp only [hrun₁, hrun₂]

/-- A shard that was opened for an update is at rest again when it is closed. -/
theorem atRest_closed_stored {shard : Shard V} (h : shard.AtRest) (me : ThreadId)
    (table : Table V) :
    (((shard.opened me .exclusive).stored table).closed me .exclusive).AtRest := by
  have hlock : shard.lock.grants .exclusive = true := by rw [h.1]; rfl
  have hmark : me ∉ shard.markers := by rw [h.2]; exact List.not_mem_nil
  exact ⟨(Lock.release_take hlock me).trans h.1, (Markers.leave_enter hmark).trans h.2⟩

/-- An update whose callback returns stores the value in the one table. -/
theorem exists_run_update (h : store.Represents place table) (me : ThreadId) (key : String)
    (callback : Option V → Process mode n S V (V × β)) {own own' : S} {stored : V × β}
    (hcallback : ∀ store : Store σ V n, (callback table[key]?).run me store own =
      (.returned stored, store, own')) :
    ∃ store', (Process.update key callback).run me store own = (.returned stored, store', own') ∧
      store'.Represents place (table.insert key stored.1) := by
  obtain ⟨routing, hroute, hplaces⟩ := h.places.exists_route_eq key
  set routed : Store σ V n := { store with routing } with hrouted
  have hrep : routed.Represents place table := ⟨h.atRest, hplaces, h.lookup⟩
  rw [Process.run_update hroute (hrep.atRest.admits me (place key) .exclusive),
    hrep.lookup_place, hcallback]
  refine ⟨_, rfl, ?_⟩
  rw [Store.modify_modify]
  have hstored : ∀ table : Table V, (table.insert key stored.1)[key]? = some stored.1 :=
    fun table => (Table.lookup_insert ..).trans (if_pos rfl)
  refine hrep.modify (fun shard hshard => atRest_closed_stored hshard me _) ?_
    fun k hk => ⟨?_, ?_⟩
  · exact (hstored _).trans (hstored table).symm
  · exact (Table.lookup_insert ..).trans (if_neg hk)
  · exact (Table.lookup_insert ..).trans (if_neg hk)

/-- An update whose callback unwinds leaves what is represented as it is. -/
theorem exists_run_update_unwound (h : store.Represents place table) (me : ThreadId) (key : String)
    (callback : Option V → Process mode n S V (V × β)) {own own' : S} {fault : Fault}
    (hcallback : ∀ store : Store σ V n, (callback table[key]?).run me store own =
      (.unwound fault, store, own')) :
    ∃ store', (Process.update key callback).run me store own = (.unwound fault, store', own') ∧
      store'.Represents place table := by
  obtain ⟨routing, hroute, hplaces⟩ := h.places.exists_route_eq key
  set routed : Store σ V n := { store with routing } with hrouted
  have hrep : routed.Represents place table := ⟨h.atRest, hplaces, h.lookup⟩
  obtain ⟨hmark, hlock⟩ := hrep.atRest.admits me (place key) .exclusive
  rw [Process.run_update hroute ⟨hmark, hlock⟩, hrep.lookup_place, hcallback]
  refine ⟨_, rfl, ?_⟩
  rw [Store.modify_modify, Store.modify_congr routed (Shard.closed_opened hmark hlock)]
  exact hrep.requestAll [place key]

/-! ## Calls, and sessions of calls -/

/-- A caught call that returns. -/
theorem run_answered_of_returned {me : ThreadId} {call : Call S V} {store store' : Store σ V n}
    {own own' : S} {answer : Answer V}
    (hrun : (call.program : Program mode S V (Answer V)).run me store own =
      (.returned answer, store', own')) :
    (call.answered : Program mode S V (Answer V)).run me store own =
      (.returned answer, store', own') := by
  rw [Program.run] at hrun
  rw [Program.run, Call.answered, Program.caught, Program.bind_eq, Program.bind, Program.process,
    Process.run, hrun]
  rfl

/-- A caught call that unwinds. -/
theorem run_answered_of_unwound {me : ThreadId} {call : Call S V} {store store' : Store σ V n}
    {own own' : S} {fault : Fault}
    (hrun : (call.program : Program mode S V (Answer V)).run me store own =
      (.unwound fault, store', own')) :
    (call.answered : Program mode S V (Answer V)).run me store own =
      (.returned (.fault fault), store', own') := by
  rw [Program.run] at hrun
  rw [Program.run, Call.answered, Program.caught, Program.bind_eq, Program.bind, Program.process,
    Process.run, hrun]
  rfl

/-- An update by a combination answers as on the one table, also if the combination unwinds. -/
theorem exists_run_answered_upsert (h : store.Represents place table) (me : ThreadId)
    (key : String) (given : V) (combine : Option V → V → S → Except Fault V × S) (own : S) :
    ∃ answer store', ((Call.upsert key given combine).answered : Program mode S V (Answer V)).run
        me store own =
        (.returned answer, store', ((Call.upsert key given combine).onTable table own).2.2) ∧
      answer.Agrees ((Call.upsert key given combine).onTable table own).1 ∧ answer.Distinct ∧
      store'.Represents place ((Call.upsert key given combine).onTable table own).2.1 := by
  let callback (old : Option V) : Program mode S V (V × Unit) := do
    let combined ← Program.modifyOwn (combine old given)
    let value ← Program.ofExcept combined
    return (value, ())
  rcases hcombine : combine table[key]? given own with ⟨result, own'⟩
  cases result with
  | ok value =>
    have hcallback (store : Store σ V n) : (callback table[key]?).process.run me store own =
        (.returned (value, ()), store, own') := by
      simp only [callback, Program.bind_eq, Program.modifyOwn, Program.bind, Program.process,
        Process.run, hcombine, Program.ofExcept, Program.pure_eq]
    obtain ⟨store', hrun, hrep⟩ :=
      h.exists_run_update me key (fun old => (callback old).process) hcallback
    simp only [Call.onTable, hcombine]
    refine ⟨.stored value, store', run_answered_of_returned ?_, .same _, trivial, hrep⟩
    rw [Call.program, Program.bind_eq, Program.run_bind, Program.run_updateWith, hrun]
    rfl
  | error fault =>
    have hcallback (store : Store σ V n) : (callback table[key]?).process.run me store own =
        (.unwound fault, store, own') := by
      simp only [callback, Program.bind_eq, Program.modifyOwn, Program.bind, Program.process,
        Process.run, hcombine, Program.ofExcept, Program.pure_eq]
    obtain ⟨store', hrun, hrep⟩ :=
      h.exists_run_update_unwound me key (fun old => (callback old).process) hcallback
    simp only [Call.onTable, hcombine]
    refine ⟨.fault fault, store', run_answered_of_unwound ?_, .same _, trivial, hrep⟩
    rw [Call.program, Program.bind_eq, Program.run_bind, Program.run_updateWith, hrun]

/-- The store's object is that of the one table, and is refused where that one is. -/
theorem run_answered_toValue (h : store.Represents place table) (me : ThreadId)
    (encode : V → Encoding) (own : S) :
    ((Call.toValue encode).answered : Program mode S V (Answer V)).run me store own =
      (.returned (.document (table.object? encode)), store.requestAll (List.finRange n), own) := by
  have hobject : table.object? encode =
      ((encodeMembers .value encode store.entries).map Form.value.object).toOption := by
    rw [← Table.object?_ofEntries h.entries_keys_nodup, h.ofEntries_entries]
  refine run_answered_of_returned ?_
  rw [Call.program, Program.bind_eq, Program.run_bind, Program.toValue, Program.bind_eq,
    Program.run_bind, Program.run_writtenMembers fun i => h.atRest.admits me i .shared, hobject]
  rfl

/-- **Every call answers as on the one table** and keeps the store representing it. -/
theorem exists_run_answered (mode : Threading) (h : store.Represents place table) (me : ThreadId)
    (call : Call S V) (own : S) :
    ∃ answer store', (call.answered : Program mode S V (Answer V)).run me store own =
        (.returned answer, store', (call.onTable table own).2.2) ∧
      answer.Agrees (call.onTable table own).1 ∧ answer.Distinct ∧
      store'.Represents place (call.onTable table own).2.1 := by
  have hadmits := fun i => h.atRest.admits me i .shared
  cases call with
  | keyed call =>
    obtain ⟨store', hrun, hrep⟩ := h.exists_run_keyed mode me call own
    refine ⟨_, store', run_answered_of_returned ?_, .same _, ?_, hrep⟩
    · rw [Call.program, Program.bind_eq, Program.run_bind, Program.run_ask, hrun]
      rfl
    · cases call <;> trivial
  | setMany pairs =>
    obtain ⟨store', hrun, hrep⟩ := h.exists_run_setMany mode me pairs own
    refine ⟨_, store', run_answered_of_returned ?_, .same _, trivial, hrep⟩
    rw [Call.program, Program.bind_eq, Program.run_bind, hrun]
    rfl
  | upsert key given combine => exact h.exists_run_answered_upsert me key given combine own
  | count =>
    refine ⟨.size table.size, _, run_answered_of_returned ?_, .same _, trivial,
      h.requestAll (List.finRange n)⟩
    rw [Call.program, Program.bind_eq, Program.run_bind, Program.count, Program.run_ask,
      Operation.process, Process.run_countAll hadmits, h.sumOf_size]
    rfl
  | isEmpty =>
    refine ⟨.flag (table.size == 0), _, run_answered_of_returned ?_, .same _, trivial,
      h.requestAll (List.finRange n)⟩
    rw [Call.program, Program.bind_eq, Program.run_bind, Program.isEmpty, Program.bind_eq,
      Program.run_bind, Program.count, Program.run_ask, Operation.process,
      Process.run_countAll hadmits, h.sumOf_size]
    rfl
  | keys =>
    refine ⟨.keys ((List.finRange n).flatMap fun i => (store.table i).keys), _,
      run_answered_of_returned ?_, .keys h.perm_keys, ?_,
      (h.requestAll (List.finRange n)).requestAll (List.finRange n)⟩
    · rw [Call.program, Program.bind_eq, Program.run_bind, Program.keys, Program.run_ask,
        Process.run_keys hadmits]
      rfl
    · exact h.perm_keys.nodup_iff.mpr table.nodup_keys
  | items =>
    refine ⟨.items table, _, run_answered_of_returned ?_, .same _, trivial,
      (h.requestAll (List.finRange n)).requestAll (List.finRange n)⟩
    rw [Call.program, Program.bind_eq, Program.run_bind, Program.items, Program.run_ask,
      Process.run_items hadmits, h.ofEntries_entries]
    rfl
  | visit =>
    -- A callback that does nothing makes the visit a listing.
    refine ⟨.entries store.entries, _, run_answered_of_returned ?_, .entries h.perm_entries,
      h.entries_keys_nodup, h.requestAll (List.finRange n)⟩
    rw [Call.program, Program.bind_eq, Program.run_bind, Program.run_forEach,
      show (fun (_ : String) (_ : V) => (pure () : Program mode S V Unit).process) =
        fun _ _ => (Process.done () : Process mode n S V Unit) from rfl,
      Process.run_visit_done hadmits]
    simp only [List.map_map]
    rw [show Prod.fst ∘ (fun entry : String × V => (entry, ())) = id from rfl, List.map_id]
    rfl
  | drain =>
    -- One question more than there are entries, so that the end is told.
    refine ⟨.entries store.entries, _, run_answered_of_returned ?_, .entries h.perm_entries,
      h.entries_keys_nodup, h.requestAll (List.finRange n)⟩
    rw [Call.program, Program.bind_eq, Program.run_bind, Program.snapshot, Program.run_ask,
      Process.run_snapshot hadmits]
    simp only [Snapshot.take_fst, Snapshot.total, List.drop_zero, List.size_toArray]
    rw [List.take_of_length_le (Nat.le_succ _)]
    rfl
  | toValue encode =>
    exact ⟨_, _, h.run_answered_toValue me encode own, .same _, trivial,
      h.requestAll (List.finRange n)⟩

/-- A session answers as on the one table, call by call. -/
theorem exists_run_session (mode : Threading) (h : store.Represents place table) (me : ThreadId)
    (calls : List (Call S V)) (own : S) :
    ∃ answers store', (Call.session calls : Program mode S V (List (Answer V))).run me store own =
        (.returned answers, store', (Call.allOnTable calls table own).2.2) ∧
      List.Forall₂ Answer.Agrees answers (Call.allOnTable calls table own).1 ∧
      (∀ answer ∈ answers, answer.Distinct) ∧
      store'.Represents place (Call.allOnTable calls table own).2.1 := by
  induction calls generalizing store table own with
  | nil => exact ⟨[], store, rfl, .nil, fun _ hnone => absurd hnone List.not_mem_nil, h⟩
  | cons call rest ih =>
    obtain ⟨answer, store₁, hrun₁, hagrees, hdistinct, hrep₁⟩ :=
      h.exists_run_answered mode me call own
    obtain ⟨answers, store₂, hrun₂, hagree, hdistincts, hrep₂⟩ :=
      ih hrep₁ (call.onTable table own).2.2
    refine ⟨answer :: answers, store₂, ?_, .cons hagrees hagree, ?_, hrep₂⟩
    · rw [Call.session] at hrun₂ ⊢
      rw [List.mapM_cons, Program.bind_eq, Program.run_bind, hrun₁]
      simp only [Program.bind_eq, Program.run_bind, hrun₂]
      rfl
    · intro a ha
      rcases List.mem_cons.mp ha with rfl | ha
      · exact hdistinct
      · exact hdistincts a ha

end Store.Represents

/-- A new store represents the empty table. -/
theorem Store.exists_represents_of_ofConfig {σ V : Type} {config : Config σ}
    {store : Store σ V config.shards} (h : Store.ofConfig config = .ok store)
    (hrouting : config.routing.Stateless) : ∃ place, store.Represents place ∅ := by
  obtain ⟨-, hroutings, hshard⟩ := of_ofConfig h
  obtain ⟨place, hplace⟩ := store.exists_placesBy (hroutings ▸ hrouting)
  refine ⟨place, ⟨atRest_of_ofConfig h, hplace, fun i key => ?_⟩⟩
  rw [table, hshard i, Table.lookup_empty]
  split <;> rfl

/-- **A store is one plain map.** Take any two configurations whose routings answer from the hash
and the number of shards alone, and make the same calls on a new store of either kind. No call is
left waiting. Every answer agrees with that of the one table, lists of keys and entries without
repetition, and so the stores agree with each other. Afterwards the entries of all shards are
those of the one table, each once. -/
theorem session_agrees_with_one_table {σ σ' S V : Type} {mode : Threading} {config : Config σ}
    {config' : Config σ'} {store : Store σ V config.shards} {store' : Store σ' V config'.shards}
    (hstore : Store.ofConfig config = .ok store) (hstore' : Store.ofConfig config' = .ok store')
    (hrouting : config.routing.Stateless) (hrouting' : config'.routing.Stateless)
    (me : ThreadId) (calls : List (Call S V)) (own : S) :
    ∃ answers answers' after after',
      (Call.session calls : Program mode S V _).run me store own =
        (.returned answers, after, (Call.allOnTable calls ∅ own).2.2) ∧
      (Call.session calls : Program mode S V _).run me store' own =
        (.returned answers', after', (Call.allOnTable calls ∅ own).2.2) ∧
      List.Forall₂ Answer.Agrees answers (Call.allOnTable calls ∅ own).1 ∧
      List.Forall₂ Answer.Agrees answers answers' ∧
      (∀ answer ∈ answers, answer.Distinct) ∧
      after.entries.Perm (Call.allOnTable calls ∅ own).2.1.toList ∧
      after'.entries.Perm (Call.allOnTable calls ∅ own).2.1.toList := by
  obtain ⟨place, hrep⟩ := Store.exists_represents_of_ofConfig hstore hrouting
  obtain ⟨place', hrep'⟩ := Store.exists_represents_of_ofConfig hstore' hrouting'
  obtain ⟨answers, after, hrun, hagree, hdistinct, hafter⟩ :=
    hrep.exists_run_session mode me calls own
  obtain ⟨answers', after', hrun', hagree', -, hafter'⟩ :=
    hrep'.exists_run_session mode me calls own
  refine ⟨answers, answers', after, after', hrun, hrun', hagree, ?_, hdistinct,
    hafter.perm_entries, hafter'.perm_entries⟩
  exact Answer.agree_of_agree hagree hagree'

/-- Three shards by default routing, and the default number of shards in reverse order under the
other hash, with sessions that overwrite, combine, unwind, remove and list. -/
theorem session_agrees_with_one_table_mirrored :
    let plain : Config Unit := { shardCount := 3 }
    let mirrored : Config Unit :=
      { shardCount := 0, hasher := .fx, capacity := some 8, routing := .custom Router.mirror () }
    let calls : List (Call Unit Nat) := [
      .setMany [("a", 1), ("b", 2), ("a", 3)],
      .upsert "a" 10 fun old given own => (.ok (old.getD 0 + given), own),
      .upsert "b" 0 fun _ _ own => (.error (.callback "no"), own),
      .keyed (.setIfAbsent "c" 5), .keyed (.pop "b"), .keys, .visit, .drain]
    ∃ (store : Store Unit Nat plain.shards) (store' : Store Unit Nat mirrored.shards),
      Store.ofConfig plain = .ok store ∧ Store.ofConfig mirrored = .ok store' ∧
      plain.routing.Stateless ∧ mirrored.routing.Stateless ∧
      ∃ answers answers' after after',
        (Call.session calls : Program .single Unit Nat _).run ⟨0, 0⟩ store () =
          (.returned answers, after, ()) ∧
        (Call.session calls : Program .single Unit Nat _).run ⟨0, 0⟩ store' () =
          (.returned answers', after', ()) ∧
        List.Forall₂ Answer.Agrees answers (Call.allOnTable calls ∅ ()).1 ∧
        List.Forall₂ Answer.Agrees answers answers' ∧
        (∀ answer ∈ answers, answer.Distinct) ∧
        after.entries.Perm (Call.allOnTable calls ∅ ()).2.1.toList ∧
        after'.entries.Perm (Call.allOnTable calls ∅ ()).2.1.toList := by
  have hmirror : (Routing.custom Router.mirror ()).Stateless :=
    ⟨fun hash count => count - 1 - hash % count, fun _ _ _ => rfl⟩
  exact ⟨_, _, rfl, rfl, Routing.stateless_modulo, hmirror,
    session_agrees_with_one_table rfl rfl Routing.stateless_modulo hmirror ⟨0, 0⟩ _ ()⟩

end ShardStore
