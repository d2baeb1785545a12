import ShardStore.Proofs.Traversals.Coherent

/-!
# Room for what is sent

A worker that holds its lock waits for nobody. The channel of the reports has room for those that
have yet to be made (`Traversal.Accounts.room`), and the worker's own channel was made with room for
exactly the entries of its table, so those that it has yet to send fit behind those that are queued,
whether anybody receives or not (`Traversal.Coherent.entries_room`). It goes on by its own steps to
where it gives its lock back, and `Traversal.unlockSteps` says how many these are at most.

The output of a buffered snapshot has room for all entries that the merging worker has not sent on
(`Traversal.Fits`), also after the consumer has left.
-/

namespace ShardStore

/-- How many entries of `length` a worker has yet to send while it holds its lock. -/
def Worker.sendsLeft (length : Nat) : Worker → Nat
  | .locked => length
  | .copying sent => length - sent
  | _ => 0

/-- How many steps a worker makes besides until it has given its lock back: reporting, closing its
channel and giving back. -/
def Worker.stagesLeft : Worker → Nat
  | .locked => 3
  | .copying _ => 2
  | .closed => 1
  | _ => 0

theorem Worker.hasLocked_of_holds {worker : Worker} (h : worker.holds = true) :
    worker.hasLocked = true := by
  cases worker <;> first | rfl | cases h

/-- A worker that has taken its lock and does not hold it has ended. -/
theorem Worker.eq_ended {worker : Worker} (hlocked : worker.hasLocked = true)
    (hholds : ¬worker.holds = true) : worker = .ended := by
  cases worker with
  | absent => cases hlocked
  | started => cases hlocked
  | ended => rfl
  | _ => exact absurd rfl hholds

/-- A worker that has taken its lock has taken it for good. -/
theorem Worker.Next.hasLocked_after {before after : Worker} (h : before.Next after)
    (hlocked : before.hasLocked = true) : after.hasLocked = true := by
  cases h with
  | start => cases hlocked
  | _ => rfl

namespace Traversal

variable {n : Nat} {V : Type} {cells cells' : Cells n V} {number : Nat} {run run' : Traversal n V}
  {i : Fin n}

/-- How many own steps the worker of a shard makes at most until it has given its lock back, none if
it does not hold it. -/
def unlockSteps (run : Traversal n V) (i : Fin n) : Nat :=
  (run.workers i).sendsLeft (run.entries i).length + (run.workers i).stagesLeft

/-- The reports that have yet to be made. -/
def unreported (run : Traversal n V) : List (Fin n) :=
  shardsWhere run.workers fun worker => !worker.hasReported

/-! ## Room for reports and entries -/

/-- The channel has room for all reports that have yet to be made. -/
theorem Accounts.room {slots : List (Option (Report n))} (h : run.Accounts slots) :
    run.reports.queue.length + run.unreported.length ≤ run.reports.capacity := by
  have hmade := h.perm.length_eq
  rw [List.length_append, List.length_map] at hmade
  have hall : (List.finRange n).length =
      (shardsWhere run.workers Worker.hasReported).length + run.unreported.length :=
    List.length_eq_length_filter_add fun i => (run.workers i).hasReported
  rw [List.length_finRange] at hall
  rw [h.capacity]
  omega

namespace Coherent

/-- A worker that has yet to report finds somebody listening, and room. -/
theorem reports_room (h : run.Coherent cells number) (hworker : run.workers i = .locked) :
    run.reports.receiving = true ∧ i ∈ run.unreported ∧
      run.reports.queue.length + run.unreported.length ≤ run.reports.capacity := by
  have hnot : (run.workers i).hasReported = false := by rw [hworker]; rfl
  obtain ⟨slots, haccounts⟩ := h.collecting.listening hnot
  refine ⟨haccounts.listening, mem_shardsWhere.mpr ?_, haccounts.room⟩
  rw [hnot]
  rfl

/-- The entries that a worker has yet to send fit behind those that are queued. -/
theorem entries_room (h : run.Coherent cells number) {sent : Nat}
    (hworker : run.workers i = .copying sent) : sent ≤ (cells i).table.size ∧
      (run.feeds i).queue.length + ((cells i).table.size - sent) ≤ (run.feeds i).capacity := by
  have hsize := h.guarded.size_eq (i := i) (by rw [hworker]; rfl)
  have hfeeding := h.feeding i
  rw [Feeding, hworker] at hfeeding
  obtain ⟨-, hcapacity, hqueue, hsent⟩ := hfeeding
  omega

/-- A report is queued. -/
theorem send_report (h : run.Coherent cells number) (hworker : run.workers i = .locked)
    (report : Report n) : ∃ channel, run.reports.send report = .queued channel := by
  obtain ⟨hopen, hmissing, hroom⟩ := h.reports_room hworker
  have hpos := List.length_pos_of_mem hmissing
  exact ⟨_, Channel.send_eq_queued_iff.mpr ⟨hopen, by omega, rfl⟩⟩

/-- An entry is queued, unless nobody receives any more. -/
theorem send_entry (h : run.Coherent cells number) {sent : Nat} {entry : String × V}
    (hworker : run.workers i = .copying sent)
    (hentry : (cells i).table.toList[sent]? = some entry) :
    (run.feeds i).send entry ≠ .waits := by
  intro hwaits
  obtain ⟨hlt, -⟩ := List.getElem?_eq_some_iff.mp hentry
  rw [Std.ExtTreeMap.length_toList] at hlt
  have hroom := (h.entries_room hworker).2
  have hfull := (Channel.send_eq_waits_iff.mp hwaits).2
  omega

/-! ## A worker's own steps -/

/-- A worker that holds its lock can make a step. -/
theorem isSome_stepWorker (h : run.Coherent cells number) (hholds : (run.workers i).holds = true) :
    (run.step? cells number (.worker i)).isSome = true := by
  show (run.stepWorker cells number i).isSome = true
  cases hworker : run.workers i with
  | locked =>
    obtain ⟨channel, hsend⟩ := h.send_report hworker
      { index := i, size := (cells i).table.size, feed := i }
    simp [stepWorker, hworker, hsend]
  | copying sent =>
    cases hentry : (cells i).table.toList[sent]? with
    | none => simp [stepWorker, hworker, hentry]
    | some entry =>
      have hroom := h.send_entry hworker hentry
      cases hsend : (run.feeds i).send entry with
      | queued channel => simp [stepWorker, hworker, hentry, hsend]
      | refused => simp [stepWorker, hworker, hentry, hsend]
      | waits => exact absurd hsend hroom
  | closed => simp [stepWorker, hworker]
  | _ => rw [hworker] at hholds; cases hholds

end Coherent

/-- A step of a worker takes it to its next stage. -/
theorem next_of_stepWorker (hcollecting : run.Collecting)
    (h : run.step? cells number (.worker i) = some (cells', run')) :
    (run.workers i).Next (run'.workers i) := by
  have henter {worker : Worker} (hnext : (run.workers i).Next worker)
      (hworkers : run'.workers = Function.update run.workers i worker) :
      (run.workers i).Next (run'.workers i) := by
    rwa [hworkers, Function.update_self]
  change run.stepWorker cells number i = some (cells', run') at h
  unfold stepWorker at h
  dsimp only at h
  split at h
  · cases h
  · next hworker =>
    obtain ⟨locked, -, heq⟩ := Option.map_eq_some_iff.mp h
    cases heq
    exact henter (hworker ▸ .lock) rfl
  · next hworker =>
    split at h
    · cases h
      exact henter (hworker ▸ .report) rfl
    · next hsend =>
      exact absurd (Channel.send_eq_refused_iff.mp hsend) (hcollecting.not_withhold hworker)
    · cases h
  · next sent hworker =>
    split at h
    · split at h
      · cases h
        exact henter (hworker ▸ .send sent) rfl
      · cases h
        exact henter (hworker ▸ .close sent) rfl
      · cases h
    · cases h
      exact henter (hworker ▸ .close sent) rfl
  · next hworker =>
    cases h
    exact henter (hworker ▸ .unlock) rfl
  · cases h

/-- At its next stage a worker has fewer steps to make. -/
theorem Coherent.unlockSteps_lt (h' : run'.Coherent cells' number)
    (hentries : run'.entries i = run.entries i) (hlocked : (run.workers i).hasLocked = true)
    (hnext : (run.workers i).Next (run'.workers i)) : run'.unlockSteps i < run.unlockSteps i := by
  have hfeeding := h'.feeding i
  rw [unlockSteps, unlockSteps, hentries]
  unfold Feeding at hfeeding
  rw [hentries] at hfeeding
  generalize run.workers i = before at hlocked hnext ⊢
  generalize run'.workers i = after at hnext hfeeding ⊢
  cases hnext with
  | start => cases hlocked
  | lock => cases hlocked
  | report =>
    simp only [Worker.sendsLeft, Worker.stagesLeft]
    omega
  | send sent =>
    have hle := hfeeding.2.2.2
    simp only [Worker.sendsLeft, Worker.stagesLeft]
    omega
  | close sent =>
    simp only [Worker.sendsLeft, Worker.stagesLeft]
    omega
  | unlock =>
    simp only [Worker.sendsLeft, Worker.stagesLeft]
    omega

/-- A move never leaves a worker that has taken its lock more steps to make. -/
theorem Coherent.unlockSteps_le (h : run.Coherent cells number)
    (hmove : Move cells number run cells' run') (hlocked : (run.workers i).hasLocked = true) :
    (run'.workers i).hasLocked = true ∧ run'.unlockSteps i ≤ run.unlockSteps i := by
  have hentries := entries_eq_of_move h.guarded hmove hlocked
  rcases hmove.worker_next h.collecting i with hsame | hnext
  · rw [unlockSteps, unlockSteps, hsame, hentries]
    exact ⟨hlocked, Nat.le_refl _⟩
  · refine ⟨?_, Nat.le_of_lt ((h.move hmove).unlockSteps_lt hentries hlocked hnext)⟩
    exact hnext.hasLocked_after hlocked

/-! ## Room in the output -/

/-- The entries that the merging worker has yet to send on fit behind those that are queued, if
there is room for all. -/
def Fits (run : Traversal n V) : Prop :=
  run.output.queue.length + (run.inHand ++ run.ahead.flatMap run.rest).length ≤ run.all.length

/-- While the consumer is there, no entry is lost. -/
theorem Coherent.fits (h : run.Coherent cells number) (hconsumer : run.consumer ≠ .gone) :
    run.Fits := by
  have hflow := congrArg List.length (h.flowing.flow hconsumer)
  simp only [List.length_append] at hflow
  rw [Fits, List.length_append]
  omega

/-- A merging worker that sends finds room or nobody there, if there is room for all. -/
theorem Fits.send_ne_waits (h : run.Fits) {entry : String × V} {left : List (Report n)}
    (hmerger : run.merger = .sending entry left) (hroom : run.output.capacity = run.all.length) :
    run.output.send entry ≠ .waits := by
  intro hwaits
  have hfull := (Channel.send_eq_waits_iff.mp hwaits).2
  rw [Fits, inHand_of_sending hmerger, List.length_append, List.length_singleton] at h
  omega

/-- A move that leaves the merging worker where it is leaves what it has to send on. -/
theorem Fits.upstream (h : run.Fits) (hcoherent : run.Coherent cells number)
    (hmove : Move cells number run cells' run') (hmerger : run'.merger = run.merger)
    (hpresent : run.merger ≠ .absent)
    (hqueue : run'.output.queue.length ≤ run.output.queue.length) : run'.Fits := by
  obtain ⟨total, hasker⟩ := hcoherent.inStep.exists_returned hpresent
  have hlocked (i : Fin n) := Worker.hasLocked_of_hasReported (hcoherent.hasReported hasker i)
  have hall : run'.all = run.all :=
    List.flatMap_congr fun i _ => entries_eq_of_move hcoherent.guarded hmove (hlocked i)
  have hhand : run'.inHand = run.inHand := by rw [inHand, inHand, hmerger]
  have hahead : run'.ahead = run.ahead := by rw [ahead, ahead, hmerger]
  have hrest : run.ahead.flatMap run'.rest = run.ahead.flatMap run.rest := by
    apply List.flatMap_congr
    intro i hi
    exact rest_eq_of_move hcoherent.guarded hcoherent.collecting hmove hmerger (hlocked i)
      ((hcoherent.flowing.opened i).mpr hi)
  rw [Fits] at h ⊢
  rw [hhand, hahead, hrest, hall]
  omega

/-- A move in a traversal leaves room in its output, also after the consumer has left. -/
theorem Fits.move (h : run.Fits) (hcoherent : run.Coherent cells number)
    (hmove : Move cells number run cells' run') : run'.Fits := by
  by_cases hgone : run'.consumer = .gone
  case neg => exact (hcoherent.move hmove).fits hgone
  have hpresent : run'.merger ≠ .absent :=
    (hcoherent.move hmove).inStep.merger_ne_absent (by rw [hgone]; simp)
  have hup := h.upstream hcoherent hmove
  rw [Fits] at h
  cases hmove with
  | giveUp hasker hmore hqueue hsenders =>
    exact absurd hsenders (hcoherent.collecting.not_giveUp hasker hmore hqueue)
  | handOver hasker => cases hgone
  | drained hmerger =>
    rw [Fits, inHand_of_ended rfl, ahead_of_ended rfl]
    exact (Nat.le_add_right _ _).trans h
  | @receive report left entry queue hmerger hqueue =>
    rw [inHand_of_draining hmerger,
      hcoherent.flowing.rest_receive hcoherent.feeding hmerger hqueue] at h
    rw [Fits, inHand_of_sending rfl, ahead_of_sending rfl, ← ahead_of_draining hmerger]
    exact h
  | advance hmerger hqueue hsenders =>
    rw [inHand_of_draining hmerger,
      hcoherent.flowing.rest_advance hcoherent.feeding hmerger hqueue hsenders] at h
    rw [Fits, inHand_of_draining rfl, ahead_of_draining rfl]
    exact h
  | forward hmerger hopen hroom =>
    rw [hcoherent.inStep.listening.mpr hgone] at hopen
    cases hopen
  | give hmerger hopen hcapacity hconsumer => cases hgone
  | abort hmerger hclosed =>
    rw [Fits, inHand_of_ended rfl, ahead_of_ended rfl]
    exact (Nat.le_add_right _ _).trans h
  | ask hconsumer => cases hgone
  | take hconsumer hqueue => cases hgone
  | learn hconsumer hqueue hsenders => cases hgone
  | leave hconsumer => exact hup rfl hpresent (Nat.zero_le _)
  | _ => exact hup rfl hpresent (Nat.le_refl _)

end Traversal

/-- Whether it is a step of the worker of shard `i` in the traversal number `number`. -/
def Happening.isStepOf {n : Nat} {V : Type} (number : Nat) (i : Fin n) : Happening n V → Bool
  | .inside run (.worker j) => run == number && j == i
  | _ => false

namespace Scene

variable {n : Nat} {V : Type} {scene scene' : Scene n V} {number : Nat}
  {run run' : Traversal n V} {i : Fin n}

/-- Whatever happens, there is room in the outputs. -/
theorem Reachable.fits (h : scene.Reachable) (hrun : scene.runs[number]? = some run) :
    run.Fits := by
  induction h generalizing run with
  | start cells hrest => cases hrun
  | @step scene scene' happening hreachable hstep ih =>
    have hcoherent := hreachable.coherent
    rcases hcoherent.step_cases hstep number with
      ⟨-, before, after, hbefore, hafter, hmove⟩ | ⟨-, -, hsame | ⟨-, delivery, hnew⟩⟩
    · rw [hrun] at hafter
      cases hafter
      exact (ih hbefore).move (hcoherent.runs number before hbefore) hmove
    · rw [hsame] at hrun
      exact ih hrun
    · rw [hrun] at hnew
      cases hnew
      exact (Traversal.Coherent.opening scene.cells number delivery).fits (by simp)

/-- A step of a worker takes it to its next stage, with fewer steps to make. -/
theorem Coherent.step_worker (h : scene.Coherent)
    (hstep : scene.step? (.inside number (.worker i)) = some scene')
    (hrun : scene.runs[number]? = some run) :
    ∃ run', scene'.runs = scene.runs.set number run' ∧
      Traversal.Move scene.cells number run scene'.cells run' ∧
      (run.workers i).Next (run'.workers i) := by
  simp only [step?, hrun] at hstep
  obtain ⟨⟨cells, run'⟩, hactor, rfl⟩ := Option.map_eq_some_iff.mp hstep
  exact ⟨run', rfl, Traversal.move_of_step? hactor,
    Traversal.next_of_stepWorker (h.runs number run hrun).collecting hactor⟩

/-- Whatever else happens, a worker that has taken its lock makes no more steps than it has to until
it has given it back. -/
theorem Coherent.countP_add_unlockSteps_le (h : scene.Coherent)
    {happenings : List (Happening n V)} (hplay : scene.play happenings = some scene')
    (hrun : scene.runs[number]? = some run) (hrun' : scene'.runs[number]? = some run')
    (hlocked : (run.workers i).hasLocked = true) :
    happenings.countP (Happening.isStepOf number i) + run'.unlockSteps i ≤ run.unlockSteps i := by
  induction happenings generalizing scene run with
  | nil =>
    cases hplay
    rw [hrun] at hrun'
    cases hrun'
    rw [List.countP_nil, Nat.zero_add]
  | cons first happenings ih =>
    obtain ⟨next, hfirst, hrest⟩ := play_cons_eq_some_iff.mp hplay
    have hcoherent := h.runs number run hrun
    by_cases hown : first.isStepOf number i = true
    · obtain rfl : first = .inside number (.worker i) := by
        unfold Happening.isStepOf at hown
        split at hown
        · rw [Bool.and_eq_true, beq_iff_eq, beq_iff_eq] at hown
          rw [hown.1, hown.2]
        · cases hown
      obtain ⟨after, hruns, hmove, hnext⟩ := h.step_worker hfirst hrun
      have hafter : next.runs[number]? = some after := by
        rw [hruns, List.getElem?_set_self (List.getElem?_eq_some_iff.mp hrun).1]
      have hless := (hcoherent.move hmove).unlockSteps_lt
        (Traversal.entries_eq_of_move hcoherent.guarded hmove hlocked) hlocked hnext
      have hle := ih (h.step hfirst) hrest hafter (hnext.hasLocked_after hlocked)
      rw [List.countP_cons_of_pos hown]
      omega
    · rw [List.countP_cons_of_neg hown]
      rcases h.step_cases hfirst number with
        ⟨-, run₁, after, hrun₁, hafter, hmove⟩ | ⟨-, -, hsame | ⟨hnone, -⟩⟩
      · rw [hrun] at hrun₁
        cases hrun₁
        obtain ⟨hlocked', hless⟩ := hcoherent.unlockSteps_le hmove hlocked
        exact (ih (h.step hfirst) hrest hafter hlocked').trans hless
      · exact ih (h.step hfirst) hrest (hsame.trans hrun) hlocked
      · rw [hrun] at hnone
        cases hnone

end Scene

end ShardStore
