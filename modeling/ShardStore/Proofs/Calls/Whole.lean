import Mathlib.Data.List.FinRange
import Mathlib.Data.List.Nodup
import Mathlib.Logic.Function.Iterate
import ShardStore.Proofs.Calls.Scopes
import ShardStore.Proofs.Tables

/-!
# Whole-map calls, in one equation each

A whole-map call goes from shard to shard and only reads. Where no shard refuses or makes it wait,
what it answers is a function of the tables that are there, and all that it leaves behind is one
counted request, or two, at every shard (`Store.requestAll`).
-/

namespace ShardStore

namespace Store

variable {σ V : Type} {n : Nat}

/-- The store after one counted request at each of some shards. -/
def requestAll (store : Store σ V n) (shards : List (Fin n)) : Store σ V n :=
  shards.foldl (fun store i => store.modify i Shard.requested) store

theorem requestAll_append (store : Store σ V n) (shards shards' : List (Fin n)) :
    store.requestAll (shards ++ shards') = (store.requestAll shards).requestAll shards' :=
  List.foldl_append

/-- Only the counters of a shard can tell that requests were counted. -/
theorem shard_requestAll (store : Store σ V n) (shards : List (Fin n)) (i : Fin n) :
    (store.requestAll shards).shard i = Shard.requested^[shards.count i] (store.shard i) := by
  induction shards generalizing store with
  | nil => rfl
  | cons j rest ih =>
    have hstep : (store.requestAll (j :: rest)) =
        (store.modify j Shard.requested).requestAll rest := rfl
    rw [hstep, ih, shard_modify, List.count_cons]
    by_cases hji : j = i
    · subst hji
      simp only [if_true, BEq.rfl, Function.iterate_succ_apply]
    · simp only [beq_iff_eq, hji, if_false, Nat.add_zero]

/-- After one request at every shard, each shard has counted one. -/
theorem shard_requestAll_finRange (store : Store σ V n) (i : Fin n) :
    (store.requestAll (List.finRange n)).shard i = (store.shard i).requested := by
  rw [shard_requestAll, List.count_eq_one_of_mem (List.nodup_finRange n) (List.mem_finRange i)]
  rfl

theorem hasher_requestAll (store : Store σ V n) (shards : List (Fin n)) :
    (store.requestAll shards).hasher = store.hasher := by
  induction shards generalizing store with
  | nil => rfl
  | cons i rest ih => exact ih (store.modify i Shard.requested)

theorem routing_requestAll (store : Store σ V n) (shards : List (Fin n)) :
    (store.requestAll shards).routing = store.routing := by
  induction shards generalizing store with
  | nil => rfl
  | cons i rest ih => exact ih (store.modify i Shard.requested)

theorem table_modify_requested (store : Store σ V n) (i j : Fin n) :
    (store.modify i Shard.requested).table j = store.table j := by
  rw [table, shard_modify]
  split <;> rfl

/-- Counting requests changes no table. -/
theorem table_requestAll (store : Store σ V n) (shards : List (Fin n)) (i : Fin n) :
    (store.requestAll shards).table i = store.table i := by
  induction shards generalizing store with
  | nil => rfl
  | cons j rest ih =>
    have hstep : (store.requestAll (j :: rest)) =
        (store.modify j Shard.requested).requestAll rest := rfl
    rw [hstep, ih, table_modify_requested]

/-- Counting a request closes no shard. -/
theorem admits_modify_requested {store : Store σ V n} {me : ThreadId} {i : Fin n}
    {access : Access} (h : store.Admits me i access) (j : Fin n) :
    (store.modify j Shard.requested).Admits me i access := by
  unfold Admits
  rw [shard_modify]
  split <;> exact h

theorem admits_requestAll {store : Store σ V n} {me : ThreadId} {i : Fin n} {access : Access}
    (h : store.Admits me i access) (shards : List (Fin n)) :
    (store.requestAll shards).Admits me i access := by
  induction shards generalizing store with
  | nil => exact h
  | cons j rest ih => exact ih (admits_modify_requested h j)

/-- Counting requests wakes nobody. -/
theorem AtRest.requestAll {store : Store σ V n} (h : store.AtRest) (shards : List (Fin n)) :
    (store.requestAll shards).AtRest := by
  induction shards generalizing store with
  | nil => exact h
  | cons j rest ih =>
    refine ih fun i => ?_
    rw [shard_modify]
    split <;> exact h i

end Store

namespace Process

variable {σ S V α β : Type} {mode : Threading} {n : Nat} {store : Store σ V n} {me : ThreadId}

/-! ## Reading every shard -/

/-- Reads the table of any shard that admits it, counts the request and leaves the rest as it is. -/
def Fetches (me : ThreadId) (fetch : Fin n → Process mode n S V (Table V)) : Prop :=
  ∀ {σ : Type} {store : Store σ V n} {i : Fin n} {α : Type}, store.Admits me i .shared →
    ∀ (rest : Table V → Process mode n S V α) (own : S),
      ((fetch i).bind rest).run me store own =
        (rest (store.table i)).run me (store.modify i Shard.requested) own

theorem fetches_capture : Fetches me (capture : Fin n → Process mode n S V (Table V)) :=
  fun h => run_capture_bind me h.1 h.2

theorem fetches_collect : Fetches me (collect : Fin n → Process mode n S V (Table V)) :=
  fun h => run_collect_bind me h.2

/-- Reading some shards, none of which is closed. -/
theorem Fetches.run_mapM {fetch : Fin n → Process mode n S V (Table V)} (hfetch : Fetches me fetch)
    (shards : List (Fin n)) (h : ∀ i, store.Admits me i .shared) (own : S) :
    (shards.mapM fetch).run me store own =
      (.returned (shards.map store.table), store.requestAll shards, own) := by
  induction shards generalizing store with
  | nil => rfl
  | cons i rest ih =>
    rw [List.mapM_cons, bind_eq, hfetch (h i), bind_eq, run_bind,
      ih fun j => Store.admits_modify_requested (h j) i]
    have htables : rest.map (store.modify i Shard.requested).table = rest.map store.table :=
      List.map_congr_left fun j _ => Store.table_modify_requested store i j
    rw [htables]
    rfl

/-- Capturing every shard reads all tables and counts one request at each. -/
theorem run_captureAll (h : ∀ i, store.Admits me i .shared) (own : S) :
    (captureAll : Process mode n S V (List (Table V))).run me store own =
      (.returned ((List.finRange n).map store.table), store.requestAll (List.finRange n), own) :=
  fetches_capture.run_mapM (List.finRange n) h own

/-- The checks of all shards pass without a trace where this thread runs no callback. -/
theorem run_checkAll (h : ∀ i, store.Admits me i .shared) (own : S) :
    (checkAll : Process mode n S V Unit).run me store own = (.returned (), store, own) := by
  simp only [checkAll, List.forM_eq_forM]
  induction List.finRange n with
  | nil => rfl
  | cons i rest ih =>
    rw [List.forM_cons, bind_eq, run_check_bind me (h i).1]
    exact ih

/-- Having every shard read by a worker leaves the same. -/
theorem run_collectAll (h : ∀ i, store.Admits me i .shared) (own : S) :
    (collectAll : Process mode n S V (List (Table V))).run me store own =
      (.returned ((List.finRange n).map store.table), store.requestAll (List.finRange n), own) := by
  rw [collectAll, bind_eq, run_bind, run_checkAll h]
  exact fetches_collect.run_mapM (List.finRange n) h own

/-- Counting the entries. -/
theorem run_countAll (h : ∀ i, store.Admits me i .shared) (own : S) :
    (Operation.countAll : Process mode n S V Nat).run me store own =
      (.returned (sumOf ((List.finRange n).map fun i => (store.table i).size)),
        store.requestAll (List.finRange n), own) := by
  simp only [Operation.countAll, bind_eq, run_bind, run_captureAll h, pure_eq, run, List.map_map]
  rfl

/-- Listing the keys. -/
theorem run_keys (h : ∀ i, store.Admits me i .shared) (own : S) :
    (Operation.keys.process : Process mode n S V (List String)).run me store own =
      (.returned ((List.finRange n).flatMap fun i => (store.table i).keys),
        (store.requestAll (List.finRange n)).requestAll (List.finRange n), own) := by
  have hagain := fun i => Store.admits_requestAll (h i) (List.finRange n)
  simp only [Operation.process, bind_eq, run_bind, run_countAll h, run_collectAll hagain, pure_eq,
    run, List.flatMap_map, Store.table_requestAll]

/-- Collecting all entries in one table. -/
theorem run_items (h : ∀ i, store.Admits me i .shared) (own : S) :
    (Operation.items.process : Process mode n S V (Table V)).run me store own =
      (.returned (Table.ofEntries store.entries),
        (store.requestAll (List.finRange n)).requestAll (List.finRange n), own) := by
  have hagain := fun i => Store.admits_requestAll (h i) (List.finRange n)
  simp only [Operation.process, bind_eq, run_bind, run_countAll h, run_captureAll hagain, pure_eq,
    run, Table.foldl_addAll, List.flatMap_map, Store.table_requestAll]
  rfl

/-- Opening a snapshot. -/
theorem run_snapshot (h : ∀ i, store.Admits me i .shared) (own : S) :
    (Operation.snapshot.process : Process mode n S V (Snapshot V)).run me store own =
      (.returned { entries := store.entries.toArray }, store.requestAll (List.finRange n), own) := by
  simp only [Operation.process, bind_eq, run_bind, run_collectAll h, pure_eq, run,
    Snapshot.ofTables, List.flatMap_map]
  rfl

/-- Reading the counters of a shard. -/
theorem run_readTally (i : Fin n) (store : Store σ V n) (own : S) :
    (Operation.readTally i : Process mode n S V Tally).run me store own =
      (.returned { (store.shard i).tally with waitNanos := 0 }, store, own) := by
  simp only [Operation.readTally, bind_eq, run_perform_bind, Action.perform, pure_eq, run,
    Tally.get]

/-- Reading the counters of some shards. -/
theorem run_mapM_readTally (shards : List (Fin n)) (store : Store σ V n) (own : S) :
    (shards.mapM Operation.readTally : Process mode n S V (List Tally)).run me store own =
      (.returned (shards.map fun i => { (store.shard i).tally with waitNanos := 0 }), store,
        own) := by
  induction shards with
  | nil => rfl
  | cons i rest ih =>
    rw [List.mapM_cons, bind_eq, run_bind, run_readTally]
    simp only [bind_eq, run_bind, ih]
    rfl

/-- Reading sizes and counters; the counters show the requests of this very call. -/
theorem run_stats (h : ∀ i, store.Admits me i .shared) (own : S) :
    (Operation.stats.process : Process mode n S V Stats).run me store own =
      (.returned {
        size := sumOf ((List.finRange n).map fun i => (store.table i).size)
        shardSizes := (List.finRange n).map fun i => (store.table i).size
        operations := (List.finRange n).map fun i =>
          { (store.shard i).requested.tally with waitNanos := 0 } },
        store.requestAll (List.finRange n), own) := by
  simp only [Operation.process, bind_eq, run_bind, run_captureAll h, run_mapM_readTally, pure_eq,
    run, List.map_map, Store.shard_requestAll_finRange]
  rfl

/-! ## Visits by a callback that leaves the store alone -/

variable {callback : String → V → Process mode n S V Unit}

/-- A callback that only notes entries in its own variables, for some entries. -/
theorem run_visitEntries_of_note (note : S → String × V → S)
    (hcall : ∀ key value (store : Store σ V n) own,
      (callback key value).run me store own = (.returned (), store, note own (key, value)))
    (entries : List (String × V)) (store : Store σ V n) (own : S) :
    (visitEntries callback entries).run me store own =
      (.returned (entries.map fun entry => (entry, ())), store, entries.foldl note own) := by
  induction entries generalizing own with
  | nil => rfl
  | cons entry rest ih =>
    have hbody : visitEntries callback (entry :: rest) =
        (callback entry.1 entry.2).bind fun _ =>
          (visitEntries callback rest).bind fun visited => .done ((entry, ()) :: visited) := by
      rw [visitEntries, List.mapM_cons]
      simp only [bind_eq, pure_eq, bind_assoc, bind]
      rfl
    rw [hbody, run_bind, hcall]
    simp only [run_bind, ih]
    rfl

/-- A callback that only notes entries, for the entries of some shards. -/
theorem run_mapM_visitShard_of_note (note : S → String × V → S)
    (hcall : ∀ key value (store : Store σ V n) own,
      (callback key value).run me store own = (.returned (), store, note own (key, value)))
    (shards : List (Fin n)) (h : ∀ i, store.Admits me i .shared) (own : S) :
    (shards.mapM (visitShard callback)).run me store own =
      (.returned (shards.map fun i => (store.table i).toList.map fun entry => (entry, ())),
        store.requestAll shards,
        (shards.flatMap fun i => (store.table i).toList).foldl note own) := by
  induction shards generalizing store own with
  | nil => rfl
  | cons i rest ih =>
    have hclosed : (store.modify i (Shard.opened me .shared)).modify i (Shard.closed me .shared) =
        store.modify i Shard.requested := by
      rw [Store.modify_modify]
      exact Store.modify_congr store (Shard.closed_opened (h i).1 (h i).2)
    rw [List.mapM_cons, bind_eq, run_bind, run_visitShard (h i), run_visitEntries_of_note note hcall]
    simp only [hclosed]
    rw [bind_eq, run_bind, ih fun j => Store.admits_modify_requested (h j) i, List.flatMap_cons,
      List.foldl_append]
    simp only [Store.table_modify_requested]
    rfl

/-- Visiting every entry with a callback that only notes entries. -/
theorem run_visit_of_note (note : S → String × V → S)
    (hcall : ∀ key value (store : Store σ V n) own,
      (callback key value).run me store own = (.returned (), store, note own (key, value)))
    (h : ∀ i, store.Admits me i .shared) (own : S) :
    (visit callback).run me store own =
      (.returned (store.entries.map fun entry => (entry, ())),
        store.requestAll (List.finRange n), store.entries.foldl note own) := by
  rw [visit, bind_eq, run_bind, run_mapM_visitShard_of_note note hcall (List.finRange n) h]
  simp only [pure_eq, run, ← List.flatMap_def, ← List.map_flatMap]
  rfl

/-- Visiting every entry with a callback that only returns. -/
theorem run_visit_done (h : ∀ i, store.Admits me i .shared) (own : S) :
    (visit (fun _ _ => .done ()) : Process mode n S V _).run me store own =
      (.returned (store.entries.map fun entry => (entry, ())),
        store.requestAll (List.finRange n), own) := by
  rw [run_visit_of_note (fun own _ => own) (fun _ _ _ _ => rfl) h, List.foldl_fixed]

end Process

end ShardStore
