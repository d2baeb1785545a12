import Mathlib.Data.List.Pairwise
import ShardStore.Proofs.Calls.Whole
import ShardStore.Proofs.Courses.Inside
import ShardStore.Proofs.SnapshotProtocol
import ShardStore.Proofs.Traversals.Keys
import ShardStore.Routing.Stock

/-!
# Whole-map views agree

There are many ways to look at a store as a whole: counting, listing the keys, collecting the
entries in one table, visiting them, opening a snapshot and reading it in either way, and taking
statistics. On a store at rest they all show the same tables, shard by shard (`Store.Views`). This
holds for every router, so also where one key is in several shards: listings then name it once for
each of these shards, and only the one table has to choose, and takes the value of the last.

## Calls and steps

The calls of one thread are run to their end. Snapshots and the keys are read by workers of their
own, so what these deliver is stated once more for the workers' steps, in any order and with any
other threads about that do not write.
-/

namespace ShardStore

namespace Store

variable {σ V : Type} {n : Nat}

/-- How many entries each shard has. -/
def sizes (store : Store σ V n) : List Nat :=
  (List.finRange n).map fun i => (store.table i).size

/-- How many entries there are. -/
def size (store : Store σ V n) : Nat :=
  sumOf store.sizes

/-- The tables of a store, for workers that nobody is in the way of. -/
def cells (store : Store σ V n) : Cells n V :=
  fun i => { table := store.table i }

/-- Listed shard by shard, there are as many entries as there are in all shards together. -/
theorem length_entries (store : Store σ V n) : store.entries.length = store.size := by
  rw [entries, List.length_flatMap, size, sizes]
  simp only [Std.ExtTreeMap.length_toList]
  rfl

/-- The keys of all shards are those of all entries. -/
theorem flatMap_keys (store : Store σ V n) :
    ((List.finRange n).flatMap fun i => (store.table i).keys) = store.entries.map Prod.fst := by
  simp only [entries, List.map_flatMap, Std.ExtTreeMap.map_fst_toList_eq_keys]

/-- There are no entries exactly when every shard is empty. -/
theorem size_eq_zero_iff {store : Store σ V n} :
    store.size = 0 ↔ ∀ i, store.table i = ∅ := by
  rw [← length_entries, List.length_eq_zero_iff, entries, List.flatMap_eq_nil_iff]
  simp only [List.mem_finRange, forall_const, Std.ExtTreeMap.toList_eq_nil_iff]

/-- In the row of all shards, the lesser ones stand before a shard and the greater ones behind it. -/
theorem mem_iff_of_finRange_eq {front back : List (Fin n)} {i : Fin n}
    (h : List.finRange n = front ++ i :: back) (j : Fin n) :
    (j ∈ front ↔ j < i) ∧ (j ∈ back ↔ i < j) := by
  have hsorted := List.pairwise_lt_finRange n
  have hmem := List.mem_finRange j
  rw [h, List.pairwise_append] at hsorted
  rw [h, List.mem_append, List.mem_cons] at hmem
  have hfront : j ∈ front → j < i := fun hj => hsorted.2.2 j hj i List.mem_cons_self
  have hback : j ∈ back → i < j := (List.pairwise_cons.mp hsorted.2.1).1 j
  refine ⟨⟨hfront, fun hlt => ?_⟩, ⟨hback, fun hlt => ?_⟩⟩
  · rcases hmem with hj | rfl | hj
    · exact hj
    · omega
    · have hgt := hback hj
      omega
  · rcases hmem with hj | rfl | hj
    · have hgt := hfront hj
      omega
    · omega
    · exact hj

/-- Collected in one table, the entries of all shards are those of the last shard that has the
key. -/
theorem lookup_ofEntries_entries {store : Store σ V n} {key : String} {value : V} :
    (Table.ofEntries store.entries)[key]? = some value ↔
      ∃ i, (store.table i)[key]? = some value ∧ ∀ j, i < j → (store.table j)[key]? = none := by
  rw [entries, Table.lookup_ofEntries_flatMap, List.findSome?_eq_some_iff]
  -- Read from behind, what stands before a shard are the greater ones.
  have hbefore {front back : List (Fin n)} {i : Fin n}
      (h : (List.finRange n).reverse = front ++ i :: back) (j : Fin n) : j ∈ front ↔ i < j := by
    rw [List.reverse_eq_iff, List.reverse_append, List.reverse_cons, List.append_assoc,
      List.singleton_append] at h
    rw [← (mem_iff_of_finRange_eq h j).2, List.mem_reverse]
  constructor
  · rintro ⟨front, i, back, hsplit, hvalue, hnone⟩
    exact ⟨i, hvalue, fun j hj => hnone j ((hbefore hsplit j).mpr hj)⟩
  · rintro ⟨i, hvalue, hnone⟩
    obtain ⟨front, back, hsplit⟩ := List.append_of_mem (List.mem_reverse.mpr (List.mem_finRange i))
    exact ⟨front, i, back, hsplit, hvalue, fun j hj => hnone j ((hbefore hsplit j).mp hj)⟩

/-- No key is listed twice exactly when no key is in two shards. -/
theorem nodup_keys_entries {store : Store σ V n} :
    (store.entries.map Prod.fst).Nodup ↔
      ∀ i j key, key ∈ store.table i → key ∈ store.table j → i = j := by
  rw [← flatMap_keys, List.nodup_flatMap]
  constructor
  · rintro ⟨-, hdisjoint⟩ i j key hi hj
    by_contra hij
    have hsymm : Std.Symm (Function.onFun List.Disjoint fun i => (store.table i).keys) :=
      ⟨fun _ _ h => h.symm⟩
    have hpair := hdisjoint.forall (List.mem_finRange i) (List.mem_finRange j) hij
    exact hpair (Std.ExtTreeMap.mem_keys.mpr hi) (Std.ExtTreeMap.mem_keys.mpr hj)
  · intro happart
    refine ⟨fun i _ => Std.ExtTreeMap.nodup_keys, (List.nodup_finRange n).imp ?_⟩
    intro i j hij key hi hj
    exact hij (happart i j key (Std.ExtTreeMap.mem_keys.mp hi) (Std.ExtTreeMap.mem_keys.mp hj))

end Store

/-! ## The workers' steps -/

namespace Scene

variable {n : Nat} {V : Type} {scene scene' : Scene n V} {tables : Fin n → Table V}

/-- The shards have certain tables, and nothing else was captured from them. -/
structure Still (scene : Scene n V) (tables : Fin n → Table V) : Prop where
  current : ∀ i, (scene.cells i).table = tables i
  captured : ∀ (number : Nat) (run : Traversal n V) i table, scene.runs[number]? = some run →
    run.captured i = some table → table = tables i

/-- Where nobody writes, the shards keep their tables, and these are what is captured. -/
theorem Still.step (hstill : scene.Still tables) (h : scene.Coherent) {happening : Happening n V}
    (hstep : scene.step? happening = some scene')
    (hquiet : ∀ thread i table, happening ≠ .outside (.write thread i table)) :
    scene'.Still tables where
  current i := by
    rw [← hstill.current i]
    cases happening with
    | outside act =>
      obtain ⟨cells, hact, rfl⟩ := Option.map_eq_some_iff.mp hstep
      exact Cells.table_of_outside? hact (fun thread j table hwrite =>
        hquiet thread j table (congrArg Happening.outside hwrite)) i
    | opening delivery => cases hstep; rfl
    | inside number actor =>
      rcases h.step_cases hstep number with ⟨-, run, run', -, -, hmove⟩ | ⟨hout, -⟩
      · exact hmove.table_eq i
      · simp [Happening.isIn] at hout
  captured number run i table hrun hcaptured := by
    rcases h.step_cases hstep number with
      ⟨-, before, after, hbefore, hafter, hmove⟩ | ⟨-, -, hsame | ⟨-, delivery, hnew⟩⟩
    · rw [hrun] at hafter
      cases hafter
      have hcoherent := h.runs number before hbefore
      cases hcase : before.captured i with
      | some other =>
        rw [hcoherent.guarded.captured_eq hmove hcase] at hcaptured
        rw [← Option.some.inj hcaptured]
        exact hstill.captured number before i other hbefore hcase
      | none =>
        have hlocked := (hcoherent.started_of_captured hmove hcase (by rw [hcaptured]; rfl)).2
        rw [hcoherent.captured_of_locked hmove hlocked] at hcaptured
        rw [← Option.some.inj hcaptured, hstill.current i]
    · rw [hsame] at hrun
      exact hstill.captured number run i table hrun hcaptured
    · rw [hrun] at hnew
      cases hnew
      cases hcaptured

theorem Still.play (hstill : scene.Still tables) (h : scene.Coherent)
    {happenings : List (Happening n V)} (hplay : scene.play happenings = some scene')
    (hquiet : ∀ thread i table, .outside (.write thread i table) ∉ happenings) :
    scene'.Still tables := by
  induction happenings generalizing scene with
  | nil => cases hplay; exact hstill
  | cons first happenings ih =>
    obtain ⟨next, hfirst, hrest⟩ := play_cons_eq_some_iff.mp hplay
    have hnext := hstill.step h hfirst fun thread i table heq =>
      hquiet thread i table (heq ▸ List.mem_cons_self)
    exact ih hnext (h.step hfirst) hrest fun thread i table hmem =>
      hquiet thread i table (List.mem_cons_of_mem _ hmem)

end Scene

/-- Where nobody writes, every snapshot of a store delivers its entries, in either way. -/
theorem Store.delivers_of_play {σ V : Type} {n : Nat} (store : Store σ V n)
    {happenings : List (Happening n V)} {scene : Scene n V}
    (hplay : Scene.play { cells := store.cells } happenings = some scene)
    (hquiet : ∀ thread i table, .outside (.write thread i table) ∉ happenings)
    {number : Nat} {run : Traversal n V} (hrun : scene.runs[number]? = some run) {total : Nat}
    (hasker : run.asker = .returned total) :
    total = store.size ∧ run.received <+: store.entries ∧
      (0 < run.ends → run.received = store.entries) := by
  have hreachable : scene.Reachable := (Scene.Reachable.start store.cells fun _ => rfl).play hplay
  have hstart : Scene.Still { cells := store.cells } store.table :=
    ⟨fun _ => rfl, fun number run i table hnone => by cases hnone⟩
  have hstill := hstart.play (Scene.Reachable.start store.cells fun _ => rfl).coherent hplay hquiet
  have hdelivers := hreachable.delivers hrun
  obtain ⟨hcaptured, htotal⟩ := hdelivers.returned total hasker
  have hall : run.all = store.entries := by
    refine List.flatMap_congr fun i _ => ?_
    obtain ⟨table, htable⟩ := Option.isSome_iff_exists.mp (hcaptured i)
    rw [Traversal.entries, htable, hstill.captured number run i table hrun htable]
  rw [← hall, htotal, ← store.length_entries, hall]
  exact ⟨rfl, hall ▸ hdelivers.beginning, fun hends => hall ▸ hdelivers.complete hends⟩

namespace KeyCollection

variable {n : Nat} {V : Type} {state state' : KeyCollection n V} {tables : Fin n → Table V}

/-- The shards have certain tables, and no other keys were captured from them. -/
structure Still (state : KeyCollection n V) (tables : Fin n → Table V) : Prop where
  current : ∀ i, (state.cells i).table = tables i
  captured : ∀ i keys, state.captured i = some keys → keys = (tables i).keys

theorem Still.step (hstill : state.Still tables) {actor : KeyActor n V}
    (hstep : state.step? actor = some state')
    (hquiet : ∀ thread i table, actor ≠ .outside (.write thread i table)) :
    state'.Still tables := by
  rcases move_or_outside hstep with hmove | ⟨act, cells, rfl, hact, rfl⟩
  · refine ⟨fun i => (hmove.tables i).1.trans (hstill.current i), fun i keys hkeys => ?_⟩
    rcases (hmove.tables i).2 with hsame | hnew
    · exact hstill.captured i keys (hsame.symm.trans hkeys)
    · rw [hnew, hstill.current i] at hkeys
      exact (Option.some.inj hkeys).symm
  · refine ⟨fun i => ?_, hstill.captured⟩
    rw [← hstill.current i]
    exact Cells.table_of_outside? hact (fun thread j table hwrite =>
      hquiet thread j table (congrArg KeyActor.outside hwrite)) i

/-- Steps without a write, one after another. -/
theorem Coherent.steps (h : state.Coherent) (hstill : state.Still tables)
    {actors : List (KeyActor n V)} (hsteps : actors.foldlM step? state = some state')
    (hquiet : ∀ thread i table, .outside (.write thread i table) ∉ actors) :
    state'.Coherent ∧ state'.Still tables := by
  induction actors generalizing state with
  | nil => cases hsteps; exact ⟨h, hstill⟩
  | cons actor rest ih =>
    rw [List.foldlM_cons] at hsteps
    obtain ⟨next, hstep, hrest⟩ := Option.bind_eq_some_iff.mp hsteps
    have hnext := hstill.step hstep fun thread i table heq =>
      hquiet thread i table (heq ▸ List.mem_cons_self)
    exact ih (h.step hstep) hnext hrest fun thread i table hmem =>
      hquiet thread i table (List.mem_cons_of_mem _ hmem)

end KeyCollection

/-- Where nobody writes, the workers collect the keys of all shards. -/
theorem Store.collects_of_steps {σ V : Type} {n : Nat} (store : Store σ V n)
    {capacity : Nat} {actors : List (KeyActor n V)} {state : KeyCollection n V}
    (hsteps : actors.foldlM KeyCollection.step? { cells := store.cells, channel := { capacity } } =
      some state)
    (hquiet : ∀ thread i table, .outside (.write thread i table) ∉ actors)
    (hcollector : state.collector = .returned) :
    state.keys.Perm (store.entries.map Prod.fst) := by
  have hstart : KeyCollection.Still { cells := store.cells, channel := { capacity } } store.table :=
    ⟨fun _ => rfl, fun i keys hnone => by cases hnone⟩
  obtain ⟨hcoherent, hstill⟩ :=
    (KeyCollection.Coherent.start store.cells (fun _ => rfl) capacity).steps hstart hsteps hquiet
  have hcaptured (i : Fin n) : state.capturedKeys i = (store.table i).keys := by
    obtain ⟨keys, hkeys⟩ := Option.isSome_iff_exists.mp <|
      (hcoherent.captured i).trans (by rw [(hcoherent.joining (.inr hcollector)).2 i]; rfl)
    rw [KeyCollection.capturedKeys, hkeys, Option.getD_some, hstill.captured i keys hkeys]
  rw [← store.flatMap_keys, ← funext hcaptured]
  exact hcoherent.perm_of_returned hcollector

/-! ## The statement -/

/-- A program tells its caller a value and leaves every table, and the caller's variables, as they
are. -/
def Program.Tells {σ S V α : Type} {mode : Threading} {n : Nat} (program : Program mode S V α)
    (me : ThreadId) (store : Store σ V n) (value : α) : Prop :=
  ∀ own, ∃ after, program.run me store own = (.returned value, after, own) ∧ after.AtRest ∧
    ∀ i, after.table i = store.table i

/-- What the whole-map calls of a thread show of a store. -/
structure Store.Views {σ V : Type} {n : Nat} (store : Store σ V n) (mode : Threading) (S : Type)
    (me : ThreadId) : Prop where
  /-- Counting gives the sum of the shards' sizes. -/
  count : (Program.count : Program mode S V Nat).Tells me store store.size
  /-- A store is empty when every shard is. -/
  isEmpty : ∃ empty, (Program.isEmpty : Program mode S V Bool).Tells me store empty ∧
    (empty = true ↔ ∀ i, store.table i = ∅)
  /-- Statistics have the size of each shard, and their sum. -/
  stats : ∃ stats, (Program.stats : Program mode S V Stats).Tells me store stats ∧
    stats.size = store.size ∧ stats.shardSizes = store.sizes ∧ stats.shardSizes.length = n
  /-- Keys are listed once for each shard that has them. -/
  keys : ∃ keys, (Program.keys : Program mode S V (List String)).Tells me store keys ∧
    keys.length = store.size ∧ keys.Perm (store.entries.map Prod.fst)
  /-- The workers collect the same keys, whatever room there is for them on the way. -/
  collection : ∀ (capacity : Nat) (actors : List (KeyActor n V)) (state : KeyCollection n V),
    actors.foldlM KeyCollection.step? { cells := store.cells, channel := { capacity } } =
      some state → (∀ thread i table, .outside (.write thread i table) ∉ actors) →
    state.collector = .returned →
    state.keys.length = store.size ∧ state.keys.Perm (store.entries.map Prod.fst)
  /-- Of a key in several shards, the one table has the value of the last. -/
  items : ∃ items, (Program.items : Program mode S V (Table V)).Tells me store items ∧
    (∀ (key : String) value, items[key]? = some value ↔
      ∃ i, (store.table i)[key]? = some value ∧ ∀ j, i < j → (store.table j)[key]? = none) ∧
    items.size ≤ store.size ∧
    (items.size = store.size ↔ ∀ i j key, key ∈ store.table i → key ∈ store.table j → i = j)
  /-- A snapshot hands out the entries shard by shard. -/
  snapshot : ∃ snapshot, (Program.snapshot : Program mode S V (Snapshot V)).Tells me store snapshot ∧
    snapshot.total = store.size ∧ ∀ count, (snapshot.take count).1 = store.entries.take count
  /-- The workers of a snapshot deliver the same entries, in either way. -/
  traversal : ∀ (happenings : List (Happening n V)) (scene : Scene n V),
    Scene.play { cells := store.cells } happenings = some scene →
    (∀ thread i table, .outside (.write thread i table) ∉ happenings) →
    ∀ (number : Nat) (run : Traversal n V) (total : Nat), scene.runs[number]? = some run →
      run.asker = .returned total → total = store.size ∧ run.received <+: store.entries ∧
        (0 < run.ends → run.received = store.entries)
  /-- A visit calls back for the same entries, in the same order. -/
  visit : ∀ (note : S → String × V → S) (own : S), ∃ visited after,
    (Program.forEach fun key value => Program.modifyOwn fun own => ((), note own (key, value)) :
        Program mode S V (List ((String × V) × Unit))).run me store own =
      (.returned visited, after, store.entries.foldl note own) ∧
    visited.map Prod.fst = store.entries ∧ visited.length = store.size ∧ after.AtRest ∧
    ∀ i, after.table i = store.table i

/-- A call that leaves nothing but counted requests tells what it returns. -/
theorem Store.AtRest.tells {σ S V α : Type} {mode : Threading} {n : Nat} {store : Store σ V n}
    {program : Program mode S V α} {me : ThreadId} {value : α} (h : store.AtRest)
    (requests : List (Fin n))
    (hrun : ∀ own, program.run me store own = (.returned value, store.requestAll requests, own)) :
    program.Tells me store value :=
  fun own => ⟨_, hrun own, h.requestAll requests, store.table_requestAll requests⟩

theorem Store.AtRest.tells_items {σ S V : Type} {mode : Threading} {n : Nat} {store : Store σ V n}
    {me : ThreadId} (h : store.AtRest) :
    (Program.items : Program mode S V (Table V)).Tells me store
      (Table.ofEntries store.entries) := by
  refine h.tells (List.finRange n ++ List.finRange n) fun own => ?_
  rw [Program.items, Program.run_ask, Process.run_items fun i => h.admits me i .shared,
    requestAll_append]

theorem Store.AtRest.tells_snapshot {σ S V : Type} {mode : Threading} {n : Nat}
    {store : Store σ V n} {me : ThreadId} (h : store.AtRest) :
    (Program.snapshot : Program mode S V (Snapshot V)).Tells me store
      { entries := store.entries.toArray } := by
  refine h.tells (List.finRange n) fun own => ?_
  rw [Program.snapshot, Program.run_ask, Process.run_snapshot fun i => h.admits me i .shared]

/-- **All whole-map views agree.** Whatever its router does, a store at rest shows the same tables
in all of them. -/
theorem Store.views_agree {σ V : Type} {n : Nat} {store : Store σ V n} (h : store.AtRest)
    (mode : Threading) (S : Type) (me : ThreadId) : store.Views mode S me := by
  have hadmits := fun i => h.admits me i .shared
  have hkeys : (store.entries.map Prod.fst).length = store.size := by
    rw [List.length_map, store.length_entries]
  constructor
  case count =>
    refine h.tells (List.finRange n) fun own => ?_
    rw [Program.count, Program.run_ask, Operation.process, Process.run_countAll hadmits]
    rfl
  case isEmpty =>
    refine ⟨store.size == 0, h.tells (List.finRange n) fun own => ?_, ?_⟩
    · rw [Program.isEmpty, Program.bind_eq, Program.run_bind, Program.count, Program.run_ask,
        Operation.process, Process.run_countAll hadmits]
      rfl
    · rw [beq_iff_eq, size_eq_zero_iff]
  case stats =>
    have hrun (own : S) : (Program.stats : Program mode S V Stats).run me store own = _ :=
      (Program.run_ask me .stats store own).trans (Process.run_stats hadmits own)
    refine ⟨_, h.tells (List.finRange n) hrun, rfl, rfl, ?_⟩
    rw [List.length_map, List.length_finRange]
  case keys =>
    refine ⟨store.entries.map Prod.fst, h.tells (List.finRange n ++ List.finRange n) fun own => ?_,
      hkeys, .refl _⟩
    rw [Program.keys, Program.run_ask, Process.run_keys hadmits, flatMap_keys, requestAll_append]
  case collection =>
    intro capacity actors state hsteps hquiet hcollector
    have hperm := store.collects_of_steps hsteps hquiet hcollector
    exact ⟨hperm.length_eq.trans hkeys, hperm⟩
  case items =>
    obtain ⟨hle, hsize⟩ := Table.size_ofEntries store.entries
    rw [store.length_entries] at hle hsize
    exact ⟨Table.ofEntries store.entries, h.tells_items, fun key value => lookup_ofEntries_entries,
      hle, hsize.trans nodup_keys_entries⟩
  case snapshot =>
    refine ⟨{ entries := store.entries.toArray }, h.tells_snapshot, store.length_entries, ?_⟩
    intro count
    rw [Snapshot.take_fst, List.drop_zero]
  case traversal =>
    intro happenings scene hplay hquiet number run total hrun hasker
    exact store.delivers_of_play hplay hquiet hrun hasker
  case visit =>
    intro note own
    let callback (key : String) (value : V) : Program mode S V Unit :=
      Program.modifyOwn fun own => ((), note own (key, value))
    have hrun := Process.run_visit_of_note note (fun key value store own =>
      (rfl : (callback key value).process.run me store own = _)) hadmits own
    refine ⟨_, _, (Program.run_forEach me callback store own).trans hrun, ?_, ?_,
      h.requestAll (List.finRange n), store.table_requestAll (List.finRange n)⟩
    · rw [List.map_map, show Prod.fst ∘ (fun entry : String × V => (entry, ())) = id from rfl,
        List.map_id]
    · rw [List.length_map, store.length_entries]

/-- A router that deals out shards in turn puts one key into both of two shards. -/
theorem Store.views_agree_key_in_two_shards :
    let config : Config Nat := { shardCount := 2, routing := .custom (Router.cycle [0, 1]) 0 }
    let fill : Program .single Unit Nat Unit := Program.setMany [("a", 1), ("a", 2), ("b", 3)]
    ∃ store : Store Nat Nat config.shards, Store.ofConfig config = .ok store ∧
      let filled := (fill.run ⟨0, 0⟩ store ()).2.1
      filled.AtRest ∧ filled.entries = [("a", 1), ("b", 3), ("a", 2)] ∧
        filled.Views .single Unit ⟨0, 0⟩ := by
  intro config fill
  obtain ⟨store, hstore⟩ : ∃ store : Store Nat Nat config.shards,
      Store.ofConfig config = .ok store := ⟨_, rfl⟩
  have hinside : store.Inside ⟨0, 0⟩ [] := Store.inside_nil_iff.mpr (Store.atRest_of_ofConfig hstore)
  have hfilled := Store.inside_nil_iff.mp (fill.keeps_process.run_inside hinside ()).2.1
  refine ⟨store, hstore, hfilled, ?_, Store.views_agree hfilled .single Unit ⟨0, 0⟩⟩
  cases hstore
  decide +kernel

end ShardStore
