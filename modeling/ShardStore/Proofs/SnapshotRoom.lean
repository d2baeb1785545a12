import Mathlib.Algebra.GroupWithZero.Nat
import ShardStore.Proofs.Threads.Counts
import ShardStore.Proofs.Traversals.Readers

/-!
# Workers and writers

A snapshot that is read slowly, in part or not at all keeps no writer waiting. Whatever a worker
sends while it holds its lock finds room, so it comes by its own steps to where it gives the lock
back, whatever the merging worker and the consumer do meanwhile (`Scene.Unhindered`). If no thread
outside holds the lock of a shard, so many steps of this shard's workers make it free
(`Scene.Reachable.exists_unlocking`).
-/

namespace ShardStore

namespace Scene

variable {n : Nat} {V : Type} {scene scene' : Scene n V} {number : Nat}
  {run run' : Traversal n V} {i : Fin n}

/-! ## A worker alone -/

theorem Coherent.isSome_step?_worker (h : scene.Coherent) (hrun : scene.runs[number]? = some run)
    (hholds : (run.workers i).holds = true) :
    (scene.step? (.inside number (.worker i))).isSome = true := by
  simp only [step?, hrun, Option.isSome_map]
  exact (h.runs number run hrun).isSome_stepWorker hholds

/-- A worker that holds its lock can make a step, which takes it to its next stage. -/
theorem Coherent.exists_step_worker (h : scene.Coherent) (hrun : scene.runs[number]? = some run)
    (hholds : (run.workers i).holds = true) :
    ∃ scene' run', scene.step? (.inside number (.worker i)) = some scene' ∧ scene'.Coherent ∧
      scene'.runs = scene.runs.set number run' ∧ scene'.runs[number]? = some run' ∧
      Traversal.Move scene.cells number run scene'.cells run' ∧
      (run.workers i).Next (run'.workers i) ∧ run'.entries i = run.entries i := by
  obtain ⟨scene', hstep⟩ := Option.isSome_iff_exists.mp (h.isSome_step?_worker hrun hholds)
  obtain ⟨run', hruns, hmove, hnext⟩ := h.step_worker hstep hrun
  refine ⟨scene', run', hstep, h.step hstep, hruns, ?_, hmove, hnext, ?_⟩
  · rw [hruns, List.getElem?_set_self (List.getElem?_eq_some_iff.mp hrun).1]
  · exact Traversal.entries_eq_of_move (h.runs number run hrun).guarded hmove
      (Worker.hasLocked_of_holds hholds)

/-- By its own steps alone a worker comes to where it has given its lock back: it sends no more than
the entries that it has not sent, and makes the other steps that it has to make. -/
theorem Coherent.exists_ended (h : scene.Coherent) (hrun : scene.runs[number]? = some run)
    (hlocked : (run.workers i).hasLocked = true) :
    ∃ sends ≤ (run.workers i).sendsLeft (run.entries i).length, ∃ scene' run',
      scene.play (List.replicate (sends + (run.workers i).stagesLeft)
        (.inside number (.worker i))) = some scene' ∧
      scene'.runs[number]? = some run' ∧ run'.workers i = .ended := by
  -- By induction on the steps that are left; each stage is one step before the next one.
  induction hsteps : run.unlockSteps i using Nat.strong_induction_on generalizing scene run with
  | h steps ih =>
    by_cases hholds : (run.workers i).holds = true
    case neg =>
      have hended := Worker.eq_ended hlocked hholds
      refine ⟨0, Nat.zero_le _, scene, run, ?_, hrun, hended⟩
      rw [hended]
      rfl
    obtain ⟨next, after, hstep, hcoherent, -, hafter, -, hnext, hentries⟩ :=
      h.exists_step_worker hrun hholds
    have hless := (hcoherent.runs number after hafter).unlockSteps_lt hentries hlocked hnext
    obtain ⟨sends, hsends, scene', run', hplay, hrun', hended⟩ :=
      ih (after.unlockSteps i) (hsteps ▸ hless) hcoherent hafter (hnext.hasLocked_after hlocked) rfl
    rw [hentries] at hsends
    have hcons (k : Nat) (hk : k = sends + (after.workers i).stagesLeft + 1) :
        scene.play (List.replicate k (.inside number (.worker i))) = some scene' := by
      rw [hk, List.replicate_succ]
      exact play_cons_eq_some_iff.mpr ⟨next, hstep, hplay⟩
    have hfeeding := (hcoherent.runs number after hafter).feeding i
    unfold Traversal.Feeding at hfeeding
    rw [hentries] at hfeeding
    generalize hbefore : run.workers i = before at hlocked hnext hholds
    generalize hworker : after.workers i = worker at hnext hsends hcons hfeeding
    cases hnext with
    | start => cases hlocked
    | lock => cases hholds
    | report => exact ⟨sends, hsends, scene', run', hcons _ rfl, hrun', hended⟩
    | send sent =>
      refine ⟨sends + 1, ?_, scene', run', hcons _ ?_, hrun', hended⟩
      · have hle := hfeeding.2.2.2
        simp only [Worker.sendsLeft] at hsends ⊢
        omega
      · show sends + 1 + 2 = sends + 2 + 1
        omega
    | close sent =>
      exact ⟨sends, hsends.trans (Nat.zero_le _), scene', run', hcons _ rfl, hrun', hended⟩
    | unlock => exact ⟨sends, hsends, scene', run', hcons _ rfl, hrun', hended⟩

/-! ## A writer's turn -/

/-- How many steps the workers of a shard make at most until each has given the lock back. -/
def unlockSteps (scene : Scene n V) (i : Fin n) : Nat :=
  (scene.runs.map fun run => run.unlockSteps i).sum

/-- When no thread outside holds the lock of a shard, the workers alone make it free for a
writer. -/
theorem Reachable.exists_unlocking (h : scene.Reachable)
    (hother : ∀ thread, ¬(scene.cells i).lock.HeldBy (.other thread)) :
    ∃ (numbers : List Nat) (scene' : Scene n V), numbers.length ≤ scene.unlockSteps i ∧
      scene.play (numbers.map fun number => .inside number (.worker i)) = some scene' ∧
      (scene'.cells i).lock.grants .exclusive = true := by
  induction hsteps : scene.unlockSteps i using Nat.strong_induction_on generalizing scene with
  | h steps ih =>
    cases hgrants : (scene.cells i).lock.grants .exclusive with
    | true => exact ⟨[], scene, Nat.zero_le _, rfl, hgrants⟩
    | false =>
      obtain ⟨number, run, hrun, hholds⟩ := h.exists_holds hother hgrants
      obtain ⟨next, after, hstep, hcoherent, hruns, hafter, hmove, hnext, hentries⟩ :=
        h.coherent.exists_step_worker hrun hholds
      have hless := (hcoherent.runs number after hafter).unlockSteps_lt hentries
        (Worker.hasLocked_of_holds hholds) hnext
      -- The other traversals' workers have as many steps left as before.
      obtain ⟨others, hsum, hset⟩ := exists_sum_set (fun run => run.unlockSteps i) hrun
      have hnextSteps : next.unlockSteps i < steps := by
        rw [← hsteps, unlockSteps, unlockSteps, hruns, hset after, hsum]
        omega
      obtain ⟨numbers, scene', hlength, hplay, hfree⟩ := ih _ hnextSteps (.step _ h hstep)
        (fun thread => mt (hmove.heldBy_other_iff i thread).mp (hother thread)) rfl
      refine ⟨number :: numbers, scene', ?_, play_cons_eq_some_iff.mpr ⟨next, hstep, hplay⟩, hfree⟩
      rw [List.length_cons]
      omega

/-! ## The statement -/

/-- What holds of the workers of the traversal number `number` of a scene. -/
structure Unhindered (scene : Scene n V) (number : Nat) (run : Traversal n V) : Prop where
  /-- While a worker holds its lock and has not reported, somebody listens, and the channel has room
  for all reports that have yet to be made. -/
  reports : ∀ i, run.workers i = .locked → run.reports.receiving = true ∧ i ∈ run.unreported ∧
    run.reports.queue.length + run.unreported.length ≤ run.reports.capacity
  /-- While it sends, its channel has room for what is queued and all that it has yet to send. -/
  entries : ∀ i sent, run.workers i = .copying sent → sent ≤ (scene.cells i).table.size ∧
    (run.feeds i).queue.length + ((scene.cells i).table.size - sent) ≤ (run.feeds i).capacity
  /-- So a report is queued. -/
  reported : ∀ i report, run.workers i = .locked →
    ∃ channel, run.reports.send report = .queued channel
  /-- An entry is queued, unless nobody receives any more. -/
  sent : ∀ i sent entry, run.workers i = .copying sent →
    (scene.cells i).table.toList[sent]? = some entry → (run.feeds i).send entry ≠ .waits
  /-- A worker that holds its lock can make a step, and has no more to send than its table holds. -/
  goesOn : ∀ i, (run.workers i).holds = true →
    (scene.step? (.inside number (.worker i))).isSome = true ∧
      (run.workers i).sendsLeft (run.entries i).length ≤ (scene.cells i).table.size
  /-- By its own steps alone it comes to where it has given its lock back, with no more sends. -/
  alone : ∀ i, (run.workers i).holds = true →
    ∃ sends ≤ (run.workers i).sendsLeft (run.entries i).length, ∃ scene' run',
      scene.play (List.replicate (sends + (run.workers i).stagesLeft)
        (.inside number (.worker i))) = some scene' ∧
      scene'.runs[number]? = some run' ∧ run'.workers i = .ended
  /-- Whatever else happens, it makes no more own steps until then. -/
  amid : ∀ i, (run.workers i).holds = true → ∀ happenings scene' run',
    scene.play happenings = some scene' → scene'.runs[number]? = some run' →
      happenings.countP (Happening.isStepOf number i) + run'.unlockSteps i ≤ run.unlockSteps i
  /-- A buffered snapshot has room for all entries, so for those that are queued and those that the
  merging worker has not sent on. -/
  output : run.delivery = .buffered → ∀ total, run.asker = .returned total →
    run.output.capacity = total ∧
      run.output.queue.length + (run.inHand ++ run.ahead.flatMap run.rest).length ≤ total
  /-- So what the merging worker sends is queued, unless nobody receives any more. -/
  forwarded : run.delivery = .buffered → ∀ entry left, run.merger = .sending entry left →
    run.output.send entry ≠ .waits ∧ (scene.step? (.inside number .merger)).isSome = true

theorem Reachable.unhindered (h : scene.Reachable) (hrun : scene.runs[number]? = some run) :
    scene.Unhindered number run := by
  have hscene := h.coherent
  have hcoherent := hscene.runs number run hrun
  have hroom (hmerger : run.merger ≠ .absent) (hdelivery : run.delivery = .buffered) :
      run.output.capacity = run.all.length := hcoherent.flowing.buffered hmerger hdelivery
  constructor
  case reports => exact fun i => hcoherent.reports_room
  case entries => exact fun i sent => hcoherent.entries_room
  case reported => exact fun i report hworker => hcoherent.send_report hworker report
  case sent => exact fun i sent entry => hcoherent.send_entry
  case goesOn =>
    intro i hholds
    refine ⟨hscene.isSome_step?_worker hrun hholds, ?_⟩
    rw [hcoherent.guarded.size_eq hholds]
    cases run.workers i with
    | locked => exact Nat.le_refl _
    | copying sent => exact Nat.sub_le _ _
    | _ => exact Nat.zero_le _
  case alone =>
    exact fun i hholds => hscene.exists_ended hrun (Worker.hasLocked_of_holds hholds)
  case amid =>
    intro i hholds happenings scene' run' hplay hrun'
    exact hscene.countP_add_unlockSteps_le hplay hrun hrun' (Worker.hasLocked_of_holds hholds)
  case output =>
    intro hdelivery total hasker
    have hmerger : run.merger ≠ .absent := fun habsent =>
      hcoherent.inStep.merging.mp habsent total hasker
    have htotal := (hcoherent.collecting.of_returned hasker).2
    refine ⟨(hroom hmerger hdelivery).trans htotal.symm, ?_⟩
    rw [htotal]
    exact h.fits hrun
  case forwarded =>
    intro hdelivery entry left hmerger
    have hsend := (h.fits hrun).send_ne_waits hmerger (hroom (by simp [hmerger]) hdelivery)
    refine ⟨hsend, ?_⟩
    simp only [step?, hrun, Option.isSome_map, Traversal.step?, Traversal.stepMerger, hmerger]
    cases hcase : run.output.send entry with
    | queued output => rfl
    | refused => rfl
    | waits => exact absurd hcase hsend

/-- **A worker never waits for the consumer while it holds a lock.** In whatever order things
happen, whatever a worker sends while it holds its shard's lock finds room, so by its own steps it
comes to where it has given the lock back, after no more sends than its table has entries; and over
a channel with room for all entries the merging worker does not wait either. When no thread outside
holds the lock of a shard, any thread is granted it alone after so many steps of the workers,
whether or not a snapshot is read. -/
theorem workers_never_wait_for_the_consumer (h : scene.Reachable) :
    (∀ number run, scene.runs[number]? = some run → scene.Unhindered number run) ∧
    ∀ (i : Fin n) (thread : ThreadId),
      (∀ other, ¬(scene.cells i).lock.HeldBy (.other other)) →
      ∃ (numbers : List Nat) (scene' : Scene n V), numbers.length ≤ scene.unlockSteps i ∧
        scene.play (numbers.map fun number => .inside number (.worker i)) = some scene' ∧
        (scene'.step? (.outside (.lock thread i .exclusive))).isSome = true := by
  refine ⟨fun number run hrun => h.unhindered hrun, fun i thread hother => ?_⟩
  obtain ⟨numbers, scene', hlength, hplay, hgrants⟩ := h.exists_unlocking hother
  refine ⟨numbers, scene', hlength, hplay, ?_⟩
  simp only [step?, Cells.outside?, Cells.take?, hgrants, Option.isSome_map, if_pos,
    Option.isSome_some]

/-- Two shards, one with two entries and one with none. A thread has asked for a snapshot and does
not read it; one worker has sent an entry, the other one has nothing to send. The thread is granted
either lock alone. -/
theorem workers_never_wait_for_the_consumer_unread :
    let cells : Cells 2 Nat := fun i =>
      if i = 0 then { table := ((∅ : Table Nat).insert "a" 1).insert "b" 2 } else {}
    let actors : List (Actor 2) := [.asker, .asker, .asker, .worker 1, .worker 0, .worker 0,
      .worker 1, .worker 0, .asker, .asker, .asker]
    ∃ (scene : Scene 2 Nat) (run : Traversal 2 Nat),
      play { cells } (.opening .buffered :: actors.map (.inside 0)) = some scene ∧
      scene.Reachable ∧ scene.runs[0]? = some run ∧
      run.workers 0 = .copying 1 ∧ run.workers 1 = .copying 0 ∧ run.consumer = .idle ∧
      (∀ i : Fin 2, (scene.cells i).lock.grants .exclusive = false) ∧
      (∀ (i : Fin 2) (other : ThreadId), ¬(scene.cells i).lock.HeldBy (.other other)) ∧
      scene.Unhindered 0 run ∧
      ∀ i : Fin 2, ∃ (numbers : List Nat) (scene' : Scene 2 Nat),
        numbers.length ≤ scene.unlockSteps i ∧
        scene.play (numbers.map fun number => .inside number (.worker i)) = some scene' ∧
        (scene'.step? (.outside (.lock ⟨0, 0⟩ i .exclusive))).isSome = true := by
  intro cells actors
  have hend : ((play { cells } (.opening .buffered :: actors.map (.inside 0))).bind fun scene =>
      scene.runs[0]?.map fun run => (run.workers 0, run.workers 1, run.consumer,
        (scene.cells 0).lock, (scene.cells 1).lock)) =
      some (.copying 1, .copying 0, .idle, { readers := [.worker 0 0] },
        { readers := [.worker 0 1] }) := by
    decide +kernel
  obtain ⟨scene, hplay, hmap⟩ := Option.bind_eq_some_iff.mp hend
  obtain ⟨run, hrun, hfacts⟩ := Option.map_eq_some_iff.mp hmap
  simp only [Prod.mk.injEq] at hfacts
  obtain ⟨hworker, hworker', hconsumer, hlock, hlock'⟩ := hfacts
  have hrest : cells.AtRest := by
    intro i
    simp only [cells]
    split <;> rfl
  have hreachable : scene.Reachable := (Reachable.start cells hrest).play hplay
  have hother (i : Fin 2) (other : ThreadId) : ¬(scene.cells i).lock.HeldBy (.other other) := by
    revert i
    exact Fin.forall_fin_two.mpr
      ⟨by simp [hlock, Lock.HeldBy], by simp [hlock', Lock.HeldBy]⟩
  have hgrants : ∀ i : Fin 2, (scene.cells i).lock.grants .exclusive = false :=
    Fin.forall_fin_two.mpr ⟨by simp [hlock, Lock.grants], by simp [hlock', Lock.grants]⟩
  have hmain := workers_never_wait_for_the_consumer hreachable
  exact ⟨scene, run, hplay, hreachable, hrun, hworker, hworker', hconsumer, hgrants, hother,
    hmain.1 0 run hrun, fun i => hmain.2 i ⟨0, 0⟩ (hother i)⟩

end Scene

end ShardStore
