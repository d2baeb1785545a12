import Mathlib.Algebra.BigOperators.Fin
import Mathlib.Algebra.Order.BigOperators.Group.Finset
import ShardStore.Proofs.Traversals.Progress

/-!
# Traversals come to an end

Every step in a traversal brings an entry nearer to the consumer, or somebody nearer to the end. An
entry weighs the more the farther it is away: most before its worker has sent it, then in the
worker's channel, in the merging worker's hand, and least in the output. `Traversal.work` adds
this up. How much there is to do is known only when all tables are captured, so until then the
number of shards that are not comes first (`Traversal.Coherent.work_lt`). After that it bounds the
number of steps (`Scene.Coherent.countP_add_work_le`).
-/

namespace ShardStore

/-- What the asking thread has left to do. -/
def Asker.work {n : Nat} : Asker n → Nat
  | .starting next => (n - next) + (n + 2)
  | .receiving reported _ => n + 1 - reported
  | _ => 0

/-- What the worker of a shard with `length` entries has left to do after it has captured them. -/
def Worker.work (length : Nat) : Worker → Nat
  | .locked => 5 * length + 3
  | .copying sent => 5 * (length - sent) + 2
  | .closed => 1
  | _ => 0

/-- What the merging worker has left to do for the channels and for what it has in hand. -/
def Merger.work {n : Nat} {V : Type} : Merger n V → Nat
  | .absent => n + 2
  | .draining left => left.length + 1
  | .sending _ left => left.length + 4
  | .ended => 0

/-- What the consumer has left to do before it asks. -/
def Consumer.work : Consumer → Nat
  | .absent => 1
  | .idle => 1
  | _ => 0

namespace Traversal

variable {n : Nat} {V : Type} {cells cells' : Cells n V} {number : Nat} {run run' : Traversal n V}

/-- What is left to do for a shard until the merging worker has its entries. -/
def shardWork (run : Traversal n V) (i : Fin n) : Nat :=
  (run.workers i).work (run.entries i).length + 4 * (run.feeds i).queue.length

/-- What is left to do for all shards. -/
def shardsWork (run : Traversal n V) : Nat :=
  sumOf ((List.finRange n).map run.shardWork)

/-- What is left to do besides. -/
def othersWork (run : Traversal n V) : Nat :=
  run.asker.work + run.merger.work + 2 * run.output.queue.length + run.consumer.work +
    (if run.ends = 0 then 2 else 0)

/-- What is left to do until the consumer is told that there is no more. -/
def work (run : Traversal n V) : Nat :=
  run.shardsWork + run.othersWork

/-- How many workers have not taken their locks. -/
def unlocked (run : Traversal n V) : Nat :=
  (shardsWhere run.workers fun worker => !worker.hasLocked).length

/-! ## Less work -/

theorem shardsWork_eq_sum (run : Traversal n V) : run.shardsWork = ∑ i, run.shardWork i := by
  rw [Fin.sum_univ_def]
  rfl

theorem shardWork_congr {i : Fin n} (hworker : run'.workers i = run.workers i)
    (hfeed : (run'.feeds i).queue = (run.feeds i).queue)
    (hcaptured : run'.captured i = run.captured i) : run'.shardWork i = run.shardWork i := by
  unfold shardWork entries
  rw [hworker, hfeed, hcaptured]

/-- There is less to do if there is not more for any shard and less besides. -/
theorem work_lt_of_others (hshards : ∀ i, run'.shardWork i ≤ run.shardWork i)
    (hothers : run'.othersWork < run.othersWork) : run'.work < run.work := by
  have hsum : run'.shardsWork ≤ run.shardsWork := by
    rw [shardsWork_eq_sum, shardsWork_eq_sum]
    exact Finset.sum_le_sum fun i _ => hshards i
  unfold work
  omega

/-- There is less to do if there is less for one shard than there is more besides. -/
theorem work_lt_of_shard {i : Fin n} {k : Nat}
    (hother : ∀ j, j ≠ i → run'.shardWork j = run.shardWork j)
    (hshard : run'.shardWork i + k ≤ run.shardWork i)
    (hothers : run'.othersWork < run.othersWork + k) : run'.work < run.work := by
  have hrest : ∑ j ∈ Finset.univ.erase i, run'.shardWork j =
      ∑ j ∈ Finset.univ.erase i, run.shardWork j :=
    Finset.sum_congr rfl fun j hj => hother j (Finset.ne_of_mem_erase hj)
  unfold work
  rw [shardsWork_eq_sum, shardsWork_eq_sum,
    ← Finset.add_sum_erase _ run'.shardWork (Finset.mem_univ i),
    ← Finset.add_sum_erase _ run.shardWork (Finset.mem_univ i), hrest]
  omega

/-- A worker that goes on leaves less to do. -/
theorem work_lt_of_worker {i : Fin n} {worker : Worker}
    (hworkers : run'.workers = Function.update run.workers i worker)
    (hfeeds : ∀ j, j ≠ i → run'.feeds j = run.feeds j) (hcaptured : run'.captured = run.captured)
    (hshard : run'.shardWork i < run.shardWork i) (hothers : run'.othersWork = run.othersWork)
    (hlocked : worker.hasLocked = (run.workers i).hasLocked) :
    run'.unlocked = run.unlocked ∧ run'.work < run.work := by
  refine ⟨?_, work_lt_of_shard (k := 1) (fun j hj => ?_) hshard (by omega)⟩
  · rw [unlocked, unlocked, hworkers, shardsWhere_update (by rw [hlocked])]
  · refine shardWork_congr ?_ (by rw [hfeeds j hj]) (by rw [hcaptured])
    rw [hworkers, Function.update_of_ne hj]

/-- A move leaves fewer workers without their locks or less to do, unless the consumer is told once
more that there is no more. -/
theorem Coherent.work_lt (h : run.Coherent cells number) (hmove : Move cells number run cells' run')
    (hends : run.consumer = .gone ∨ run.ends = 0 ∨ run'.ends = run.ends) :
    run'.unlocked < run.unlocked ∨ run'.unlocked = run.unlocked ∧ run'.work < run.work := by
  cases hmove with
  | @start next hasker hlt =>
    have habsent := h.collecting.absent_of_starting next hlt hasker
    refine .inr ⟨?_, work_lt_of_others (fun j => ?_) ?_⟩
    · rw [unlocked, unlocked, shardsWhere_update (by rw [habsent]; rfl)]
    · by_cases hj : j = ⟨next, hlt⟩
      · subst hj
        simp only [shardWork, Function.update_self, Worker.work, habsent, Nat.le_refl]
      · exact Nat.le_of_eq (shardWork_congr (Function.update_of_ne hj _ _) rfl rfl)
    · simp only [othersWork, hasker, Asker.work]
      omega
  | listen hasker hlt =>
    refine .inr ⟨rfl, work_lt_of_others (fun j => Nat.le_refl _) ?_⟩
    simp only [othersWork, hasker, Asker.work]
    omega
  | @handOver slots hasker =>
    -- One channel for each shard: the merging worker was counted with one more before it started.
    have habsent := h.inStep.merger_eq_absent (by simp [hasker])
    have hconsumer := h.inStep.consuming.mpr habsent
    obtain ⟨-, -, hlength, -⟩ := h.collecting.of_receiving hasker
    have hends : (run.handOver slots).ends = run.ends := rfl
    refine .inr ⟨rfl, work_lt_of_others (fun j => Nat.le_refl _) ?_⟩
    rw [othersWork, othersWork, hends]
    simp only [Traversal.handOver, hasker, habsent, hconsumer, Asker.work, Merger.work,
      Consumer.work, hlength, List.length_nil]
    omega
  | @note reported slots report queue hasker hmore hqueue =>
    obtain ⟨-, -, hlength, haccounts⟩ := h.collecting.of_receiving hasker
    have hle : (Report.arrange slots).length ≤ slots.length := List.length_filterMap_le _ _
    rw [hlength, haccounts.length] at hle
    refine .inr ⟨rfl, work_lt_of_others (fun j => Nat.le_refl _) ?_⟩
    simp only [othersWork, hasker, Asker.work]
    omega
  | giveUp hasker hmore hqueue hsenders =>
    exact absurd hsenders (h.collecting.not_giveUp hasker hmore hqueue)
  | @lock i hworker hgrants =>
    -- Only now it shows how much there is to do for this shard.
    have hcount := length_shardsWhere_update run.workers (fun worker => !worker.hasLocked) i .locked
      (by rw [hworker]; rfl) rfl
    refine .inl ?_
    simp only [unlocked]
    omega
  | @report i hworker hopen hroom =>
    have hsize := h.guarded.size_eq (i := i) (by rw [hworker]; rfl)
    refine .inr (work_lt_of_worker rfl (fun j hj => Function.update_of_ne hj _ _) rfl ?_ rfl ?_)
    · simp only [shardWork, Function.update_self, hworker, Worker.work, List.length_nil, entries]
      omega
    · rw [hworker]; rfl
  | @withhold i hworker hclosed =>
    refine .inr (work_lt_of_worker rfl (fun _ _ => rfl) rfl ?_ rfl (by rw [hworker]; rfl))
    simp only [shardWork, Function.update_self, hworker, Worker.work, entries]
    omega
  | @send i sent entry hworker hentry hopen hroom =>
    rw [h.guarded.toList_eq (by rw [hworker]; rfl)] at hentry
    obtain ⟨hlt, -⟩ := List.getElem?_eq_some_iff.mp hentry
    refine .inr (work_lt_of_worker rfl (fun j hj => Function.update_of_ne hj _ _) rfl ?_ rfl ?_)
    · simp only [shardWork, Function.update_self, hworker, Worker.work, List.length_append,
        List.length_singleton, entries] at hlt ⊢
      omega
    · rw [hworker]; rfl
  | @close i sent hworker hwhy =>
    refine .inr (work_lt_of_worker rfl (fun j hj => Function.update_of_ne hj _ _) rfl ?_ rfl ?_)
    · simp only [shardWork, Function.update_self, hworker, Worker.work, Channel.dropSender]
      omega
    · rw [hworker]; rfl
  | @unlock i hworker =>
    refine .inr (work_lt_of_worker rfl (fun _ _ => rfl) rfl ?_ rfl (by rw [hworker]; rfl))
    simp only [shardWork, Function.update_self, hworker, Worker.work]
    omega
  | drained hmerger =>
    refine .inr ⟨rfl, work_lt_of_others (fun j => Nat.le_refl _) ?_⟩
    simp only [othersWork, hmerger, Merger.work, Channel.dropSender]
    omega
  | @receive report left entry queue hmerger hqueue =>
    -- An entry weighs four in the channel and three in the hand.
    refine .inr ⟨rfl, work_lt_of_shard (i := report.feed) (k := 4) (fun j hj => ?_) ?_ ?_⟩
    · exact shardWork_congr rfl (by simp only [Function.update_of_ne hj]) rfl
    · simp only [shardWork, Function.update_self, hqueue, List.length_cons, entries]
      omega
    · simp only [othersWork, hmerger, Merger.work]
      omega
  | @advance report left hmerger hqueue hsenders =>
    refine .inr ⟨rfl, work_lt_of_others (fun j => ?_) ?_⟩
    · by_cases hj : j = report.feed
      · subst hj
        simp only [shardWork, Function.update_self, Channel.dropReceiver, List.length_nil, entries]
        omega
      · exact Nat.le_of_eq (shardWork_congr rfl (by simp only [Function.update_of_ne hj]) rfl)
    · simp only [othersWork, hmerger, Merger.work, List.length_cons]
      omega
  | forward hmerger hopen hroom =>
    refine .inr ⟨rfl, work_lt_of_others (fun j => Nat.le_refl _) ?_⟩
    simp only [othersWork, hmerger, Merger.work, List.length_append, List.length_singleton]
    omega
  | give hmerger hopen hcapacity hconsumer =>
    refine .inr ⟨rfl, work_lt_of_others (fun j => Nat.le_refl _) ?_⟩
    simp only [othersWork, hmerger, hconsumer, Merger.work, Consumer.work]
    omega
  | abort hmerger hclosed =>
    refine .inr ⟨rfl, work_lt_of_others (fun j => ?_) ?_⟩
    · refine Nat.add_le_add_left (Nat.mul_le_mul_left 4 ?_) _
      simp only [dropFeeds]
      split
      · exact Nat.zero_le _
      · exact Nat.le_refl _
    · simp only [othersWork, hmerger, Merger.work, Channel.dropSender]
      omega
  | ask hconsumer =>
    refine .inr ⟨rfl, work_lt_of_others (fun j => Nat.le_refl _) ?_⟩
    simp only [othersWork, hconsumer, Consumer.work]
    omega
  | take hconsumer hqueue =>
    refine .inr ⟨rfl, work_lt_of_others (fun j => Nat.le_refl _) ?_⟩
    simp only [othersWork, hconsumer, hqueue, Consumer.work, List.length_cons]
    omega
  | learn hconsumer hqueue hsenders =>
    refine .inr ⟨rfl, work_lt_of_others (fun j => Nat.le_refl _) ?_⟩
    have hzero : run.ends = 0 := by
      rcases hends with hgone | hzero | hsame
      · rw [hconsumer] at hgone
        cases hgone
      · exact hzero
      · exact absurd hsame (Nat.succ_ne_self run.ends)
    simp only [othersWork, hconsumer, hzero, Consumer.work]
    simp
  | leave hconsumer =>
    refine .inr ⟨rfl, work_lt_of_others (fun j => Nat.le_refl _) ?_⟩
    simp only [othersWork, hconsumer, Consumer.work, Channel.dropReceiver, List.length_nil]
    omega

/-- When the asking thread has returned, every worker has taken its lock. -/
theorem Coherent.unlocked_eq_zero (h : run.Coherent cells number) {total : Nat}
    (hasker : run.asker = .returned total) : run.unlocked = 0 := by
  rw [unlocked, List.length_eq_zero_iff, shardsWhere, List.filter_eq_nil_iff]
  intro i _
  rw [Worker.hasLocked_of_hasReported (h.hasReported hasker i)]
  simp

end Traversal

namespace Scene

variable {n : Nat} {V : Type} {scene scene' : Scene n V} {number : Nat}
  {run run' : Traversal n V}

/-- After the asking thread has returned, every step in the traversal leaves less to do in it, until
the consumer has been told that there is no more. -/
theorem Coherent.countP_add_work_le (h : scene.Coherent) {happenings : List (Happening n V)}
    (hplay : scene.play happenings = some scene') (hrun : scene.runs[number]? = some run)
    (hrun' : scene'.runs[number]? = some run') {total : Nat} (hasker : run.asker = .returned total)
    (hends : run'.ends = 0) :
    happenings.countP (Happening.isIn number) + run'.work ≤ run.work := by
  induction happenings generalizing scene run with
  | nil =>
    cases hplay
    rw [hrun] at hrun'
    cases hrun'
    rw [List.countP_nil, Nat.zero_add]
  | cons first happenings ih =>
    obtain ⟨next, hfirst, hrest⟩ := play_cons_eq_some_iff.mp hplay
    obtain ⟨after, hafter, hbefore⟩ := h.before_of_step hfirst hrun
    have hle := ih (h.step hfirst) hrest hafter (hbefore.returned total hasker)
    obtain ⟨last, hlast, hpast⟩ := h.before_of_play hplay hrun
    rw [hrun'] at hlast
    cases hlast
    have hzero : run.ends = 0 := Nat.eq_zero_of_le_zero (hends ▸ hpast.ends)
    rcases h.step_cases hfirst number with
      ⟨hin, run₁, run₂, hrun₁, hrun₂, hmove⟩ | ⟨hout, -, hsame | ⟨hnone, -⟩⟩
    · rw [hrun] at hrun₁
      rw [hafter] at hrun₂
      cases hrun₁
      cases hrun₂
      have hcoherent := h.runs number run hrun
      have hunlocked := hcoherent.unlocked_eq_zero hasker
      have hless := hcoherent.work_lt hmove (.inr (.inl hzero))
      rw [List.countP_cons_of_pos hin]
      omega
    · rw [hafter, hrun] at hsame
      cases hsame
      rw [List.countP_cons_of_neg (by rw [hout]; simp)]
      exact hle
    · rw [hrun] at hnone
      cases hnone

end Scene

end ShardStore
