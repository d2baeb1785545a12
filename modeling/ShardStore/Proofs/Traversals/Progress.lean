import ShardStore.Proofs.Traversals.Coherent

/-!
# Traversals go on

While the consumer is there, somebody can always make a step: who waits for another waits for one
who can go on, down to the workers, and these wait for nothing but their locks
(`Traversal.Coherent.goesOn`).
-/

namespace ShardStore

namespace Traversal

variable {n : Nat} {V : Type} {cells : Cells n V} {number : Nat} {run : Traversal n V}

/-- Somebody other than a leaving consumer can make a step. -/
def GoesOn (run : Traversal n V) (cells : Cells n V) (number : Nat) : Prop :=
  ∃ actor, actor ≠ .leave ∧ (run.step? cells number actor).isSome = true

/-- A worker waits for its lock. -/
def Held (run : Traversal n V) (cells : Cells n V) : Prop :=
  ∃ i, run.workers i = .started ∧ (cells i).lock.grants .shared = false

namespace Coherent

/-- A worker that has yet to report can go on, or waits for its lock. -/
theorem goesOn_of_isPending (h : run.Coherent cells number) {i : Fin n}
    (hpending : (run.workers i).isPending = true) (hqueue : run.reports.queue = []) :
    run.GoesOn cells number ∨ run.Held cells := by
  cases hworker : run.workers i with
  | started =>
    cases hgrants : (cells i).lock.grants .shared with
    | false => exact .inr ⟨i, hworker, hgrants⟩
    | true =>
      refine .inl ⟨.worker i, by simp, ?_⟩
      simp [step?, stepWorker, hworker, Cells.take?, hgrants]
  | locked =>
    obtain ⟨slots, haccounts⟩ := h.collecting.listening (i := i) (by rw [hworker]; rfl)
    have hsend (report : Report n) : ∃ reports, run.reports.send report = .queued reports := by
      refine ⟨_, Channel.send_eq_queued_iff.mpr ⟨haccounts.listening, ?_, rfl⟩⟩
      rw [hqueue, haccounts.capacity]
      exact i.pos
    obtain ⟨reports, hreports⟩ := hsend { index := i, size := (cells i).table.size, feed := i }
    refine .inl ⟨.worker i, by simp, ?_⟩
    simp [step?, stepWorker, hworker, hreports]
  | _ => rw [hworker] at hpending; cases hpending

/-- Until it returns, the asking thread can go on, or a worker can, or waits for its lock. -/
theorem goesOn_of_asking (h : run.Coherent cells number)
    (hasker : ∀ total, run.asker ≠ .returned total) :
    run.GoesOn cells number ∨ run.Held cells := by
  cases hcase : run.asker with
  | starting next =>
    refine .inl ⟨.asker, by simp, ?_⟩
    by_cases hlt : next < n <;> simp [step?, stepAsker, hcase, hlt]
  | receiving reported slots =>
    by_cases hall : reported = n
    · refine .inl ⟨.asker, by simp, ?_⟩
      simp [step?, stepAsker, hcase, hall]
    · cases hqueue : run.reports.queue with
      | cons report queue =>
        refine .inl ⟨.asker, by simp, ?_⟩
        simp [step?, stepAsker, hcase, hall, Channel.receive, hqueue]
      | nil =>
        -- The senders that are left are workers that have yet to report.
        have hsenders := h.collecting.not_giveUp hcase hall hqueue
        rw [(h.collecting.of_receiving hcase).2.1, Ne, List.length_eq_zero_iff] at hsenders
        obtain ⟨i, hi⟩ := List.exists_mem_of_ne_nil _ hsenders
        exact h.goesOn_of_isPending (mem_shardsWhere.mp hi) hqueue
  | returned total => exact absurd hcase (hasker total)
  | interrupted reported => exact absurd hcase (h.collecting.ne_interrupted reported)

/-- A worker whose entries the merging worker waits for can go on. -/
theorem goesOn_of_ahead (h : run.Coherent cells number) {i : Fin n} (hahead : i ∈ run.ahead)
    (hreported : (run.workers i).hasReported = true) (hqueue : (run.feeds i).queue = [])
    (hsenders : (run.feeds i).senders ≠ 0) : run.GoesOn cells number := by
  have hfeeding := h.feeding i
  unfold Feeding at hfeeding
  cases hworker : run.workers i with
  | copying sent =>
    rw [hworker] at hfeeding
    refine ⟨.worker i, by simp, ?_⟩
    cases hentry : (cells i).table.toList[sent]? with
    | none => simp [step?, stepWorker, hworker, hentry]
    | some entry =>
      -- There is an entry left, so the channel has room for more than it holds.
      have hlist := h.guarded.toList_eq (i := i) (by rw [hworker]; rfl)
      have hsent := hentry
      rw [hlist] at hsent
      obtain ⟨hlt, -⟩ := List.getElem?_eq_some_iff.mp hsent
      have hsend : ∃ channel, (run.feeds i).send entry = .queued channel := by
        refine ⟨_, Channel.send_eq_queued_iff.mpr ⟨(h.flowing.opened i).mpr hahead, ?_, rfl⟩⟩
        rw [hqueue, hfeeding.2.1, List.length_nil]
        omega
      obtain ⟨channel, hchannel⟩ := hsend
      simp [step?, stepWorker, hworker, hentry, hchannel]
  | closed => rw [hworker] at hfeeding; exact absurd hfeeding hsenders
  | ended => rw [hworker] at hfeeding; exact absurd hfeeding hsenders
  | _ => rw [hworker] at hreported; cases hreported

/-- When the consumer waits and nothing is there for it, the merging worker or a worker can go
on. -/
theorem goesOn_of_waiting (h : run.Coherent cells number) {total : Nat}
    (hasker : run.asker = .returned total) (hconsumer : run.consumer = .waiting)
    (hqueue : run.output.queue = []) : run.GoesOn cells number := by
  cases hmerger : run.merger with
  | absent => exact absurd hasker (h.inStep.merging.mp hmerger total)
  | draining left =>
    cases left with
    | nil =>
      refine ⟨.merger, by simp, ?_⟩
      simp [step?, stepMerger, hmerger]
    | cons report left =>
      cases hfeed : (run.feeds report.feed).queue with
      | cons entry queue =>
        refine ⟨.merger, by simp, ?_⟩
        simp [step?, stepMerger, hmerger, Channel.receive, hfeed]
      | nil =>
        by_cases hsenders : (run.feeds report.feed).senders = 0
        · refine ⟨.merger, by simp, ?_⟩
          simp [step?, stepMerger, hmerger, Channel.receive, hfeed, hsenders]
        · refine h.goesOn_of_ahead ?_ (h.hasReported hasker report.feed) hfeed hsenders
          rw [ahead_of_draining hmerger, List.map_cons]
          exact List.mem_cons_self
  | sending entry left =>
    -- The consumer is there, and takes an entry from hand to hand where there is no room.
    have hopen : run.output.receiving = true := by
      by_contra hclosed
      rw [Bool.not_eq_true, h.inStep.listening, hconsumer] at hclosed
      cases hclosed
    refine ⟨.merger, by simp, ?_⟩
    by_cases hcapacity : run.output.capacity = 0
    · have hwaits := (Channel.send_eq_waits_iff (a := entry)).mpr ⟨hopen, by omega⟩
      simp [step?, stepMerger, hmerger, hwaits, hcapacity, hconsumer]
    · have hsend : ∃ output, run.output.send entry = .queued output := by
        refine ⟨_, Channel.send_eq_queued_iff.mpr ⟨hopen, ?_, rfl⟩⟩
        rw [hqueue, List.length_nil]
        omega
      obtain ⟨output, houtput⟩ := hsend
      simp [step?, stepMerger, hmerger, houtput]
  | ended =>
    -- The output has ended, which is an answer as well.
    have hsenders := h.inStep.senders
    rw [hmerger] at hsenders
    refine ⟨.take, by simp, ?_⟩
    simp [step?, stepTake, hconsumer, Channel.receive, hqueue, hsenders, Merger.senders]

/-- While the consumer has not left, somebody can make a step, or a worker waits for its lock. -/
theorem goesOn (h : run.Coherent cells number) (hconsumer : run.consumer ≠ .gone) :
    run.GoesOn cells number ∨ run.Held cells := by
  by_cases hasker : ∀ total, run.asker ≠ .returned total
  · exact h.goesOn_of_asking hasker
  · simp only [not_forall, not_not] at hasker
    obtain ⟨total, hasker⟩ := hasker
    refine .inl ?_
    cases hcase : run.consumer with
    | absent =>
      exact absurd hasker (h.inStep.merging.mp (h.inStep.consuming.mp hcase) total)
    | idle =>
      refine ⟨.ask, by simp, ?_⟩
      simp [step?, stepAsk, hcase]
    | waiting =>
      cases hqueue : run.output.queue with
      | cons entry queue =>
        refine ⟨.take, by simp, ?_⟩
        simp [step?, stepTake, hcase, Channel.receive, hqueue]
      | nil => exact h.goesOn_of_waiting hasker hcase hqueue
    | gone => exact absurd hcase hconsumer

end Coherent

end Traversal

end ShardStore
