import Mathlib.Data.Finset.Card
import ShardStore.Proofs.Calls.Whole
import ShardStore.Proofs.Contents
import ShardStore.Proofs.Courses.Filing
import ShardStore.Routing.Stock

/-!
# The shards partition the keys

Where the router answers from the hash and the number of shards alone, every key that is present is
in the shard that the router names for it, and in no other, at every point of every interleaving of
threads: between the calls, inside callbacks to any depth, and after faults that were caught. So the
size of a shard is the number of present keys whose shard it is, and statistics tell these numbers:
all of them at one point if nobody acts meanwhile, and else each at the point at which the call
reads that shard.

`Threads.Filed` is what one step keeps.
-/

namespace ShardStore

variable {σ S V α β γ : Type} {mode : Threading} {n : Nat}

namespace Store

/-- What a caller is told who asks for the shard of a key. -/
def shardIndex (store : Store σ V n) (key : String) : Outcome Nat :=
  ((Program.shardIndex key : Program .single Unit V Nat).run { origin := 0 } store ()).1

/-- It is what the router names, whoever asks. -/
theorem run_shardIndex (store : Store σ V n) (key : String) (me : ThreadId) (own : S) :
    ((Program.shardIndex key : Program mode S V Nat).run me store own).1 =
      match (store.route key).1 with
      | .ok i => .returned i.val
      | .error fault => .unwound fault := by
  rw [Program.shardIndex, Program.run_ask, Operation.process, Process.bind_eq,
    Process.run_perform_bind, Action.perform]
  rcases store.route key with ⟨answer, routed⟩
  cases answer <;> rfl

theorem shardIndex_eq_returned {store : Store σ V n} {key : String} {i : Fin n} :
    store.shardIndex key = .returned i.val ↔ (store.route key).1 = .ok i := by
  rw [shardIndex, run_shardIndex]
  cases (store.route key).1 with
  | ok j =>
    refine ⟨fun h => congrArg Except.ok (Fin.ext (Outcome.returned.inj h)), fun h => ?_⟩
    rw [Except.ok.inj h]
  | error fault => exact ⟨nofun, nofun⟩

/-- The keys that are in some shard. -/
def presentKeys (store : Store σ V n) : Finset String :=
  (store.entries.map Prod.fst).toFinset

/-- The keys that are in some shard and whose shard is `i`. -/
def keysOf (store : Store σ V n) (i : Fin n) : Finset String :=
  store.presentKeys.filter fun key => store.shardIndex key = .returned i.val

theorem mem_presentKeys {store : Store σ V n} {key : String} :
    key ∈ store.presentKeys ↔ ∃ i, key ∈ store.table i := by
  simp only [presentKeys, entries, List.map_flatMap, Std.ExtTreeMap.map_fst_toList_eq_keys,
    List.mem_toFinset, List.mem_flatMap, List.mem_finRange, true_and, Std.ExtTreeMap.mem_keys]

/-- The shards partition the keys. -/
structure Partitioned (store : Store σ V n) : Prop where
  /-- A key is in its shard. -/
  placed : ∀ {i : Fin n} {key : String}, key ∈ store.table i →
    store.shardIndex key = .returned i.val
  /-- No key is in two shards. -/
  apart : ∀ {i j : Fin n} {key : String}, key ∈ store.table i → key ∈ store.table j → i = j
  /-- No key is listed twice, by one shard or by two. -/
  once : (store.entries.map Prod.fst).Nodup
  /-- A shard has as many entries as there are keys of it. -/
  size : ∀ i, (store.table i).size = (store.keysOf i).card
  /-- All shards have as many as there are keys. -/
  total : sumOf ((List.finRange n).map fun i => (store.table i).size) = store.presentKeys.card

/-- **A store that is filed is partitioned.** -/
theorem FiledBy.partitioned {store : Store σ V n} {send : String → Except Fault (Fin n)}
    (h : store.FiledBy send) : store.Partitioned := by
  have hplaced {i : Fin n} {key : String} (hmem : key ∈ store.table i) :
      store.shardIndex key = .returned i.val := by
    obtain ⟨routing, hroute, -⟩ := h.sends.exists_route_eq key
    rw [shardIndex_eq_returned, hroute]
    exact h.tables i key hmem
  have hapart {i j : Fin n} {key : String} (hi : key ∈ store.table i) (hj : key ∈ store.table j) :
      i = j :=
    Except.ok.inj ((h.tables i key hi).symm.trans (h.tables j key hj))
  have honce : (store.entries.map Prod.fst).Nodup := by
    simp only [entries, List.map_flatMap, Std.ExtTreeMap.map_fst_toList_eq_keys]
    refine List.nodup_flatMap.mpr ⟨fun i _ => Std.ExtTreeMap.nodup_keys, ?_⟩
    refine (List.nodup_finRange n).imp fun hij key hi hj => hij ?_
    exact hapart (Std.ExtTreeMap.mem_keys.mp hi) (Std.ExtTreeMap.mem_keys.mp hj)
  refine ⟨hplaced, hapart, honce, fun i => ?_, ?_⟩
  · -- The keys of shard `i` are those that are listed there.
    have hkeys : store.keysOf i = (store.table i).keys.toFinset := by
      ext key
      rw [keysOf, Finset.mem_filter, mem_presentKeys, List.mem_toFinset, Std.ExtTreeMap.mem_keys]
      refine ⟨fun ⟨⟨j, hj⟩, hi⟩ => ?_, fun hi => ⟨⟨i, hi⟩, hplaced hi⟩⟩
      rw [hplaced hj, Outcome.returned.injEq, Fin.val_inj] at hi
      exact hi ▸ hj
    rw [hkeys, List.toFinset_card_of_nodup Std.ExtTreeMap.nodup_keys, Std.ExtTreeMap.length_keys]
  · rw [presentKeys, List.toFinset_card_of_nodup honce, List.length_map, entries,
      List.length_flatMap]
    simp only [Std.ExtTreeMap.length_toList]
    rfl

end Store

/-! ## What one step keeps -/

theorem Process.Begins.files {course : Process mode n S V α} (h : course.Begins)
    (send : String → Except Fault (Fin n)) : course.Files send := by
  cases h with
  | program program => exact program.files_process
  | reader i value => exact (only_capture i).reading.files.bind fun _ => trivial

namespace Threads

/-- The store is filed, and so is whatever the threads will store. -/
structure Filed (threads : Threads mode σ S V α n) (send : String → Except Fault (Fin n)) :
    Prop where
  store : threads.store.FiledBy send
  courses : ∀ course ∈ threads.courses, course.2.Files send

variable {start threads threads' : Threads mode σ S V α n} {log : List (Entry n V)}
  {send : String → Except Fault (Fin n)}

/-- A step keeps it. -/
theorem Filed.step (h : threads.Filed send) {t : Nat} (hstep : threads.step? t = some threads') :
    threads'.Filed send := by
  obtain ⟨own, course, own', course', store', hcourse, hmoved, rfl⟩ := exists_of_step? hstep
  obtain ⟨hfiles, hfiled⟩ := (h.courses _ (List.mem_of_getElem? hcourse)).step? h.store hmoved
  refine ⟨hfiled, fun other hother => ?_⟩
  rcases List.mem_or_eq_of_mem_set hother with hother | rfl
  · exact h.courses other hother
  · exact hfiles

/-- So does a run. -/
theorem Logs.filed (h : start.Logs log threads) (hstart : start.Filed send) :
    threads.Filed send := by
  induction h with
  | start => exact hstart
  | step t _ hstep ih => exact ih.step hstep

/-- Threads that begin on a new store are filed. -/
theorem filed_of_begins {config : Config σ} {start : Threads mode σ S V α config.shards}
    (hstore : Store.ofConfig config = .ok start.store) (hrouting : config.routing.ByHash)
    (hbegins : ∀ course ∈ start.courses, course.2.Begins) :
    start.Filed fun key => (start.store.route key).1 := by
  obtain ⟨-, hroutings, hshard⟩ := Store.of_ofConfig hstore
  refine ⟨⟨Store.sendsBy_route (hroutings ▸ hrouting), fun i => ?_⟩, fun course hcourse => ?_⟩
  · rw [Store.table, hshard i]
    exact Table.SentTo.empty
  · exact (hbegins course hcourse).files _

end Threads

/-! ## Statistics -/

namespace Process

/-- A course that goes through a list performs, in a row, what yields the result of each element. -/
theorem Ends.of_mapM {f : γ → Process mode n S V β} {list : List γ}
    {performed : List (Performed n V)} {results : List β}
    (h : (list.mapM f).Ends performed (.ok results)) :
    results.length = list.length ∧ ∀ (k : Nat) (a : γ) (b : β), list[k]? = some a →
        results[k]? = some b →
      ∃ first part last, performed = first ++ part ++ last ∧ (f a).Ends part (.ok b) := by
  induction list generalizing performed results with
  | nil =>
    cases h.2
    exact ⟨rfl, nofun⟩
  | cons head list ih =>
    rw [List.mapM_cons] at h
    obtain ⟨result, first, second, rfl, hfirst, hsecond⟩ := h.of_bind
    obtain ⟨others, second, last, rfl, hothers, hlast⟩ := hsecond.of_bind
    cases hlast.2
    obtain ⟨hlength, hparts⟩ := ih hothers
    refine ⟨congrArg Nat.succ hlength, fun k a b ha hb => ?_⟩
    cases k with
    | zero =>
      cases ha
      cases hb
      exact ⟨[], first, second ++ last, by rw [List.nil_append], hfirst⟩
    | succ k =>
      obtain ⟨before, part, after, rfl, hpart⟩ := hparts k a b ha hb
      exact ⟨first ++ before, part, after ++ last, by simp only [List.append_assoc], hpart⟩

/-- What is performed to read a table. -/
theorem Ends.exists_of_capture {i : Fin n} {performed : List (Performed n V)} {table : Table V}
    (h : (capture i : Process mode n S V (Table V)).Ends performed (.ok table)) :
    ∃ first last, performed = first ++ ⟨_, .load i, table⟩ :: last := by
  obtain ⟨_, performed, rfl, hcollect⟩ := Ends.of_perform_bind h
  obtain ⟨_, first, second, rfl, -, hsecond⟩ := Ends.of_bind hcollect
  obtain ⟨loaded, second, rfl, hrelease⟩ := Ends.of_perform_bind hsecond
  obtain ⟨_, last, rfl, hlast⟩ := Ends.of_perform_bind hrelease
  cases hlast.2
  exact ⟨_ :: first, _, rfl⟩

/-- The sizes of statistics are those of the tables that are read for them. -/
theorem Ends.exists_load {performed : List (Performed n V)} {stats : Stats}
    (h : (Operation.stats.process : Process mode n S V Stats).Ends performed (.ok stats)) :
    stats.shardSizes.length = n ∧ stats.size = sumOf stats.shardSizes ∧
      ∀ i : Fin n, ∃ table first last, performed = first ++ ⟨_, .load i, table⟩ :: last ∧
        stats.shardSizes[i.val]? = some table.size := by
  obtain ⟨tables, first, second, rfl, htables, hsecond⟩ := Ends.of_bind h
  obtain ⟨operations, second, last, rfl, -, hlast⟩ := hsecond.of_bind
  cases hlast.2
  obtain ⟨hlength, hparts⟩ := htables.of_mapM
  rw [List.length_finRange] at hlength
  refine ⟨(List.length_map _).trans hlength, rfl, fun i => ?_⟩
  have hi : i.val < tables.length := hlength.symm ▸ i.isLt
  have hshard : (List.finRange n)[i.val]? = some i := by
    rw [List.getElem?_eq_getElem (by rw [List.length_finRange]; exact i.isLt),
      List.getElem_finRange]
    rfl
  obtain ⟨before, part, after, rfl, hpart⟩ :=
    hparts i.val i tables[i.val] hshard (List.getElem?_eq_getElem hi)
  obtain ⟨front, back, rfl⟩ := hpart.exists_of_capture
  refine ⟨tables[i.val], before ++ front, back ++ after ++ (second ++ last), ?_, ?_⟩
  · simp only [List.append_assoc, List.cons_append]
  · rw [List.getElem?_map, List.getElem?_eq_getElem hi, Option.map_some]

end Process

namespace Threads

variable {start threads : Threads mode σ S V α n} {log : List (Entry n V)}
  {performed : List (Performed n V)} {next : Performed n V}

/-- While something was performed along a log, it came to `next` with the threads at `threads`: what
stands before was performed by then, what stands after it was performed later. -/
def ComesTo (start : Threads mode σ S V α n) (log : List (Entry n V))
    (performed : List (Performed n V)) (next : Performed n V) (threads : Threads mode σ S V α n) :
    Prop :=
  ∃ first last before entry after, performed = first ++ next :: last ∧
    log = before ++ entry :: after ∧ entry.performed = next ∧ start.Logs before threads ∧
    first.Sublist (before.map Entry.performed) ∧ last.Sublist (after.map Entry.performed)

/-- There was such a point, and then `next` was performed. -/
theorem Logs.exists_comesTo (h : start.Logs log threads) {first last : List (Performed n V)}
    (hperformed : (first ++ next :: last).Sublist (log.map Entry.performed)) :
    ∃ threads₁ threads₂ : Threads mode σ S V α n,
      start.ComesTo log (first ++ next :: last) next threads₁ ∧ ∃ thread,
      next.2.1.perform thread threads₁.store = (.returned next.2.2, threads₂.store) := by
  obtain ⟨entries, hentries, hmap⟩ := List.sublist_map_iff.mp hperformed
  obtain ⟨front, back, rfl, hfirst, hback⟩ := List.append_eq_map_iff.mp hmap
  obtain ⟨entry, rest, rfl, hentry, hrest⟩ := List.map_eq_cons_iff.mp hback
  obtain ⟨left, right, rfl, hleft, hright⟩ := List.append_sublist_iff.mp hentries
  obtain ⟨skipped, after, rfl, hmem, hafter⟩ := List.cons_sublist_iff.mp hright
  obtain ⟨between, beyond, rfl⟩ := List.mem_iff_append.mp hmem
  have hsplit : left ++ (between ++ entry :: beyond ++ after) =
      (left ++ between) ++ entry :: (beyond ++ after) := by
    simp only [List.append_assoc, List.cons_append]
  obtain ⟨threads₁, threads₂, t, hlogs, hstep, hnote⟩ := h.exists_step hsplit
  refine ⟨threads₁, threads₂,
    ⟨first, last, _, entry, _, rfl, hsplit, hentry, hlogs, ?_, ?_⟩, ?_⟩
  · exact hfirst ▸ (hleft.trans (List.sublist_append_left ..)).map _
  · exact hrest ▸ (hafter.trans (List.sublist_append_right ..)).map _
  · obtain ⟨thread, β, action, b, heq, hperform⟩ := performed_of_note? hnote hstep
    refine ⟨thread, ?_⟩
    rw [← hentry, heq]
    exact hperform

/-- How the present keys are spread over the shards at a point of a run, and what statistics tell of
it. -/
structure KeysPartitioned (start : Threads mode σ S V α n) (log : List (Entry n V))
    (threads : Threads mode σ S V α n) : Prop where
  shards : threads.store.Partitioned
  /-- Statistics that a thread asks for at this point which no lock or mark keeps from reading. -/
  now : ∀ (me : ThreadId) (own : S), (∀ i, threads.store.Admits me i .shared) →
    ∃ stats after, (Program.stats : Program mode S V Stats).run me threads.store own =
        (.returned stats, after, own) ∧
      stats.shardSizes = (List.finRange n).map (fun i => (threads.store.keysOf i).card) ∧
      stats.size = threads.store.presentKeys.card
  /-- Statistics that were performed on the way: each number is that of the point at which the call
  came to reading its shard. -/
  onTheWay : ∀ (performed : List (Performed n V)) (stats : Stats),
    performed.Sublist (log.map Entry.performed) →
    (Operation.stats.process : Process mode n S V Stats).Ends performed (.ok stats) →
    stats.shardSizes.length = n ∧ stats.size = sumOf stats.shardSizes ∧
      ∀ i : Fin n, ∃ table threads', start.ComesTo log performed ⟨_, .load i, table⟩ threads' ∧
        stats.shardSizes[i.val]? = some (threads'.store.keysOf i).card

/-- Statistics of a store that is filed count its keys. -/
theorem Filed.stats_now (h : threads.Filed send) (me : ThreadId) (own : S)
    (hadmits : ∀ i, threads.store.Admits me i .shared) :
    ∃ stats after, (Program.stats : Program mode S V Stats).run me threads.store own =
        (.returned stats, after, own) ∧
      stats.shardSizes = (List.finRange n).map (fun i => (threads.store.keysOf i).card) ∧
      stats.size = threads.store.presentKeys.card := by
  rw [Program.stats, Program.run_ask, Process.run_stats hadmits]
  exact ⟨_, _, rfl, List.map_congr_left fun i _ => h.store.partitioned.size i,
    h.store.partitioned.total⟩

/-- Statistics that were performed on the way count the keys of the points at which they read. -/
theorem Logs.stats_onTheWay (h : start.Logs log threads) (hstart : start.Filed send)
    {stats : Stats} (hperformed : performed.Sublist (log.map Entry.performed))
    (hends : (Operation.stats.process : Process mode n S V Stats).Ends performed (.ok stats)) :
    stats.shardSizes.length = n ∧ stats.size = sumOf stats.shardSizes ∧
      ∀ i : Fin n, ∃ table threads', start.ComesTo log performed ⟨_, .load i, table⟩ threads' ∧
        stats.shardSizes[i.val]? = some (threads'.store.keysOf i).card := by
  obtain ⟨hlength, hsize, hloads⟩ := hends.exists_load
  refine ⟨hlength, hsize, fun i => ?_⟩
  obtain ⟨table, first, last, rfl, htable⟩ := hloads i
  obtain ⟨threads₁, threads₂, hcomes, thread, hperform⟩ := h.exists_comesTo hperformed
  obtain ⟨-, -, before, -, -, -, -, -, hlogs, -⟩ := id hcomes
  have hread : table = threads₁.store.table i :=
    (Outcome.returned.inj (Prod.mk.inj hperform).1).symm
  refine ⟨table, threads₁, hcomes, ?_⟩
  rw [htable, hread]
  exact congrArg some ((hlogs.filed hstart).store.partitioned.size i)

/-- **The shards partition the keys**, and statistics tell how. Take a new store of any
configuration whose routing answers or gives up by the hash and the number of shards alone, and
threads at the beginnings of programs, or of workers that read a table for a traversal, and let them
act in turns in any way. At whatever point they are, a present key is in the shard that is its own
and in no other, and each shard has as many entries as there are keys present of those whose shard
it is. Statistics tell these numbers, whether they are asked for there or were asked for on the way
(as all that threads perform, they are in the log: `Logs.exists_ends`). -/
theorem shards_partition_keys {config : Config σ}
    {start threads : Threads mode σ S V α config.shards} {log : List (Entry config.shards V)}
    (hstore : Store.ofConfig config = .ok start.store) (hrouting : config.routing.ByHash)
    (hbegins : ∀ course ∈ start.courses, course.2.Begins) (h : start.Logs log threads) :
    start.KeysPartitioned log threads := by
  have hstart := filed_of_begins hstore hrouting hbegins
  have hfiled := h.filed hstart
  exact ⟨hfiled.store.partitioned, hfiled.stats_now, fun performed stats hperformed hends =>
    h.stats_onTheWay hstart hperformed hends⟩

/-- Keys inserted on all paths, also from a callback in a callback that unwinds and is caught, and
removed, by two threads in turns; meanwhile a third asks for statistics and a worker reads. -/
theorem shards_partition_keys_nested :
    let config : Config Unit := { shardCount := 3, routing := .custom Router.mirror () }
    let first : Program .spawning Unit Nat Stats := do
      let _ ← Program.updateWith "a" fun old => do
        Program.set "b" 7
        let _ ← Program.caught (Program.updateWith "c" fun _ => do
          let _ ← Program.setIfAbsent "h" 8
          let _ ← Program.get "a"
          return (0, ()))
        return (old.getD 0 + 1, ())
      Program.stats
    let second : Program .spawning Unit Nat Stats := do
      Program.setMany [("a", 4), ("b", 5), ("e", 6)]
      let _ ← Program.onThreads () [Program.remove "e", Program.set "g" 1]
      Program.stats
    ∃ store : Store Unit Nat config.shards,
      Store.ofConfig config = .ok store ∧ config.routing.ByHash ∧
      let reader : Process .spawning config.shards Unit Nat Stats :=
        (Process.capture ⟨0, by decide⟩).bind fun _ => .done default
      let start : Threads .spawning Unit Unit Nat Stats config.shards :=
        { store, courses := [((), first.process), ((), second.process), ((), reader),
          ((), Program.stats.process)] }
      let run := start.record (List.replicate 150 [3, 0, 1, 2]).flatten
      start.Logs run.1 run.2 ∧ run.2.Ended ∧
        (run.2.store.entries.map Prod.fst).Perm ["a", "b", "g", "h"] ∧
        (∃ performed stats, performed.Sublist (run.1.map Entry.performed) ∧
          (Operation.stats.process : Process .spawning config.shards Unit Nat Stats).Ends performed
            (.ok stats)) ∧
        start.KeysPartitioned run.1 run.2 := by
  intro config first second
  obtain ⟨store, hstore⟩ : ∃ store : Store Unit Nat config.shards,
      Store.ofConfig config = .ok store := ⟨_, rfl⟩
  have hrouting : config.routing.ByHash :=
    Routing.Stateless.byHash ⟨fun hash count => count - 1 - hash % count, fun _ _ _ => rfl⟩
  refine ⟨store, hstore, hrouting, ?_⟩
  intro reader start
  have hbegins : ∀ course ∈ start.courses, course.2.Begins := by
    intro course hcourse
    rcases hcourse with _ | ⟨_, _ | ⟨_, _ | ⟨_, _ | ⟨_, hnone⟩⟩⟩⟩
    · exact .program first
    · exact .program second
    · exact .reader _ _
    · exact .program Program.stats
    · cases hnone
  have hlogs := logs_record start (List.replicate 150 [3, 0, 1, 2]).flatten
  refine ⟨hlogs, ?_, ?_, ?_, shards_partition_keys hstore hrouting hbegins hlogs⟩
  · cases hstore
    unfold Ended
    decide +kernel
  · cases hstore
    decide +kernel
  · have hok : ((start.record (List.replicate 150 [3, 0, 1, 2]).flatten).2.courses[3]?.bind
        fun course => course.2.ended?).any (fun result => result.isOk) = true := by
      cases hstore
      decide +kernel
    obtain ⟨own, course, performed, hcourse, hperformed, hends⟩ :=
      hlogs.exists_ends (show start.courses[3]? = some ((), Program.stats.process) from rfl)
    rw [hcourse, Option.bind_some] at hok
    obtain ⟨result, hended, hresult⟩ := (Option.any_eq_true _ _).mp hok
    cases result with
    | error fault => cases hresult
    | ok stats =>
      have hfourth := hends [] (.ok stats) (Process.ends_of_ended? hended)
      obtain ⟨told, atStats, rest, hsplit, hstats, -⟩ :=
        Process.Ends.of_bind (p := Operation.stats.process) hfourth
      rw [List.append_nil] at hsplit
      exact ⟨atStats, told, (hsplit ▸ List.sublist_append_left atStats rest).trans hperformed,
        hstats⟩

end Threads

end ShardStore
