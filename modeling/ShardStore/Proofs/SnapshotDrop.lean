import ShardStore.Proofs.Traversals.Readers
import ShardStore.Proofs.Traversals.Work

/-!
# Snapshots that are dropped

A consumer may drop a snapshot whenever it likes. From then on nobody waits for anybody: a worker
finds room or nobody to send to, and the merging worker finds something in the channel it reads, or
its end, or nobody to send on to, unless a worker can go on (`Traversal.Coherent.works_of_gone`).
Every step leaves less work, so after finitely many steps all workers have ended
(`Scene.WindsDown`), holding no lock and having written nothing.
-/

namespace ShardStore

/-- Whether it is a worker, of a shard or the merging one. -/
def Actor.works {n : Nat} : Actor n → Bool
  | .worker _ => true
  | .merger => true
  | _ => false

namespace Traversal

variable {n : Nat} {V : Type} {cells cells' : Cells n V} {number : Nat} {run run' : Traversal n V}

/-- All workers have ended. -/
structure Over (run : Traversal n V) : Prop where
  workers : ∀ i, run.workers i = .ended
  merger : run.merger = .ended

namespace Coherent

/-- The consumer can leave only after the asking thread has returned. -/
theorem exists_returned_of_gone (h : run.Coherent cells number) (hgone : run.consumer = .gone) :
    ∃ total, run.asker = .returned total := by
  apply h.inStep.exists_returned
  apply h.inStep.merger_ne_absent
  rw [hgone]
  simp

/-- When every worker of a shard has ended, the merging worker can go on: what it waits for is
there, or will never be, and the consumer takes nothing any more. -/
theorem merger_of_gone (h : run.Coherent cells number) (hgone : run.consumer = .gone)
    (hworkers : ∀ i, run.workers i = .ended) (hmerger : run.merger ≠ .ended) :
    (run.step? cells number .merger).isSome = true := by
  cases hcase : run.merger with
  | absent =>
    obtain ⟨total, hasker⟩ := h.exists_returned_of_gone hgone
    exact absurd hasker (h.inStep.merging.mp hcase total)
  | draining left =>
    cases left with
    | nil => simp [step?, stepMerger, hcase]
    | cons report left =>
      -- The worker has ended, so what is not queued in its channel will not come.
      have hsenders : (run.feeds report.feed).senders = 0 := by
        have hfeeding := h.feeding report.feed
        rwa [Feeding, hworkers report.feed] at hfeeding
      cases hqueue : (run.feeds report.feed).queue with
      | nil => simp [step?, stepMerger, hcase, Channel.receive, hqueue, hsenders]
      | cons entry queue => simp [step?, stepMerger, hcase, Channel.receive, hqueue]
  | sending entry left =>
    have hclosed := h.inStep.listening.mpr hgone
    have hsend := (Channel.send_eq_refused_iff (a := entry)).mpr hclosed
    simp [step?, stepMerger, hcase, hsend]
  | ended => exact absurd hcase hmerger

/-- After the consumer has left, a worker can make a step as long as not all have ended. -/
theorem works_of_gone (h : run.Coherent cells number) (hgone : run.consumer = .gone)
    (hover : ¬run.Over) :
    ∃ actor : Actor n, actor.works = true ∧ (run.step? cells number actor).isSome = true := by
  by_cases hholds : ∃ i, (run.workers i).holds = true
  · obtain ⟨i, hi⟩ := hholds
    exact ⟨.worker i, rfl, h.isSome_stepWorker hi⟩
  · -- Every worker has reported, so one that holds no lock has ended.
    obtain ⟨total, hasker⟩ := h.exists_returned_of_gone hgone
    have hworkers (i : Fin n) : run.workers i = .ended := by
      apply Worker.eq_ended
      · exact Worker.hasLocked_of_hasReported (h.hasReported hasker i)
      · intro hi
        exact hholds ⟨i, hi⟩
    have hmerger : run.merger ≠ .ended := fun hended => hover ⟨hworkers, hended⟩
    exact ⟨.merger, rfl, h.merger_of_gone hgone hworkers hmerger⟩

/-- After the consumer has left, nobody but the workers acts. -/
theorem works_of_step? (h : run.Coherent cells number) (hgone : run.consumer = .gone)
    {actor : Actor n} (hstep : (run.step? cells number actor).isSome = true) :
    actor.works = true := by
  obtain ⟨total, hasker⟩ := h.exists_returned_of_gone hgone
  cases actor with
  | worker i => rfl
  | merger => rfl
  | asker => simp [step?, stepAsker, hasker] at hstep
  | ask => simp [step?, stepAsk, hgone] at hstep
  | take => simp [step?, stepTake, hgone] at hstep
  | leave => simp [step?, stepLeave, hgone] at hstep

/-- After the consumer has left, every move leaves less work. -/
theorem work_lt_of_gone (h : run.Coherent cells number) (hgone : run.consumer = .gone)
    (hmove : Move cells number run cells' run') : run'.work < run.work := by
  obtain ⟨total, hasker⟩ := h.exists_returned_of_gone hgone
  have hunlocked := h.unlocked_eq_zero hasker
  have hless := h.work_lt hmove (.inl hgone)
  omega

end Coherent

end Traversal

/-- The table of a shard after a happening; only a write from outside makes another one. -/
def Happening.tableAfter {n : Nat} {V : Type} (i : Fin n) (table : Table V) :
    Happening n V → Table V
  | .outside (.write _ j written) => if j = i then written else table
  | _ => table

namespace Scene

variable {n : Nat} {V : Type} {scene scene' : Scene n V} {happening : Happening n V}
  {happenings : List (Happening n V)} {number : Nat} {run run' : Traversal n V}

/-! ## What becomes of the tables and the locks -/

/-- The tables are those that the writes from outside have left. -/
theorem Coherent.table_of_step (h : scene.Coherent) (hstep : scene.step? happening = some scene')
    (i : Fin n) : (scene'.cells i).table = happening.tableAfter i (scene.cells i).table := by
  cases happening with
  | outside act =>
    obtain ⟨cells, hact, rfl⟩ := Option.map_eq_some_iff.mp hstep
    cases act with
    | lock thread j access => exact Cells.table_of_outside? hact (by simp) i
    | unlock thread j access => exact Cells.table_of_outside? hact (by simp) i
    | write thread j table =>
      simp only [Cells.outside?] at hact
      split at hact
      · cases hact
        by_cases hj : j = i
        · subst hj
          simp [Happening.tableAfter]
        · simp [Happening.tableAfter, hj, Function.update_of_ne (Ne.symm hj)]
      · cases hact
  | opening delivery => cases hstep; rfl
  | inside number actor =>
    rcases h.step_cases hstep number with ⟨-, run, run', -, -, hmove⟩ | ⟨hout, -⟩
    · exact hmove.table_eq i
    · simp [Happening.isIn] at hout

theorem Coherent.table_of_play (h : scene.Coherent)
    (hplay : scene.play happenings = some scene') (i : Fin n) :
    (scene'.cells i).table =
      happenings.foldl (fun table happening => happening.tableAfter i table)
        (scene.cells i).table := by
  induction happenings generalizing scene with
  | nil => cases hplay; rfl
  | cons first happenings ih =>
    obtain ⟨next, hfirst, hrest⟩ := play_cons_eq_some_iff.mp hplay
    rw [List.foldl_cons, ← h.table_of_step hfirst i]
    exact ih (h.step hfirst) hrest

/-- A worker that holds no lock by its stage is not among the holders of any. -/
theorem Reachable.not_heldBy_worker (h : scene.Reachable) (hrun : scene.runs[number]? = some run)
    (hworkers : ∀ i, run.workers i = .ended) (i : Fin n) (j : Nat) :
    ¬(scene.cells i).lock.HeldBy (.worker number j) := by
  rintro (hreader | hwriter)
  · have hpos := List.count_pos_iff.mpr hreader
    rw [h.tracked number i j, workers_eq hrun, hworkers i] at hpos
    simp [Worker.holds] at hpos
  · exact (h.coherent.consistent i).2 number j hwriter

/-! ## The statement -/

/-- The traversal number `number` is over: its workers have ended and none of them holds a lock. -/
def Over (scene : Scene n V) (number : Nat) : Prop :=
  (∃ run, scene.runs[number]? = some run ∧ run.Over) ∧
    ∀ i j, ¬(scene.cells i).lock.HeldBy (.worker number j)

/-- What holds of the traversal number `number` of a scene when its consumer has left. -/
structure WindsDown (scene : Scene n V) (number : Nat) (run : Traversal n V) : Prop where
  /-- As long as not all workers have ended, one of them can make a step. -/
  goesOn : ¬run.Over → ∃ actor : Actor n, actor.works = true ∧
    (scene.step? (.inside number actor)).isSome = true
  /-- Nobody else acts in the traversal. -/
  alone : ∀ actor : Actor n, (scene.step? (.inside number actor)).isSome = true →
    actor.works = true
  /-- A step in the traversal leaves less work in it, and whatever else happens leaves it alone. -/
  less : ∀ happening scene', scene.step? happening = some scene' →
    ∃ run', scene'.runs[number]? = some run' ∧
      if happening.isIn number = true then run'.work < run.work else run' = run
  /-- So there are only so many steps in it, whatever else happens meanwhile. -/
  bounded : ∀ happenings scene', scene.play happenings = some scene' →
    ∃ run', scene'.runs[number]? = some run' ∧
      happenings.countP (Happening.isIn number) + run'.work ≤ run.work
  /-- When no worker can make a step any more, it is over. -/
  stuck : ∀ happenings scene', scene.play happenings = some scene' →
    (∀ actor : Actor n, actor.works = true → scene'.step? (.inside number actor) = none) →
    scene'.Over number
  /-- The workers alone come to where it is over. -/
  comes : ∃ actors : List (Actor n), (∀ actor ∈ actors, actor.works = true) ∧
    ∃ scene', scene.play (actors.map (.inside number)) = some scene' ∧ scene'.Over number
  /-- The tables are those that the writes from outside leave. -/
  tables : ∀ happenings scene', scene.play happenings = some scene' → ∀ i,
    (scene'.cells i).table =
      happenings.foldl (fun table happening => happening.tableAfter i table) (scene.cells i).table

/-- A step in a traversal whose consumer has left leaves less work in it, and whatever else happens
leaves it alone. -/
theorem Coherent.less_of_gone (h : scene.Coherent) (hrun : scene.runs[number]? = some run)
    (hgone : run.consumer = .gone) (hstep : scene.step? happening = some scene') :
    ∃ run', scene'.runs[number]? = some run' ∧
      if happening.isIn number = true then run'.work < run.work else run' = run := by
  rcases h.step_cases hstep number with
    ⟨hin, before, run', hbefore, hrun', hmove⟩ | ⟨hout, -, hsame | ⟨hnone, -⟩⟩
  · rw [hrun] at hbefore
    cases hbefore
    refine ⟨run', hrun', ?_⟩
    rw [if_pos hin]
    exact (h.runs number run hrun).work_lt_of_gone hgone hmove
  · refine ⟨run, hsame.trans hrun, ?_⟩
    rw [if_neg (by simp [hout])]
  · rw [hrun] at hnone
    cases hnone

theorem Coherent.bounded_of_gone (h : scene.Coherent) (hrun : scene.runs[number]? = some run)
    (hgone : run.consumer = .gone) (hplay : scene.play happenings = some scene') :
    ∃ run', scene'.runs[number]? = some run' ∧ run'.consumer = .gone ∧
      happenings.countP (Happening.isIn number) + run'.work ≤ run.work := by
  induction happenings generalizing scene run with
  | nil =>
    cases hplay
    refine ⟨run, hrun, hgone, ?_⟩
    rw [List.countP_nil, Nat.zero_add]
  | cons first happenings ih =>
    obtain ⟨next, hfirst, hrest⟩ := play_cons_eq_some_iff.mp hplay
    obtain ⟨after, hafter, hbefore⟩ := h.before_of_step hfirst hrun
    obtain ⟨run', hrun', hgone', hle⟩ := ih (h.step hfirst) hafter (hbefore.gone hgone) hrest
    refine ⟨run', hrun', hgone', ?_⟩
    obtain ⟨after₁, hafter₁, hless⟩ := h.less_of_gone hrun hgone hfirst
    rw [hafter] at hafter₁
    cases hafter₁
    by_cases hin : first.isIn number = true
    · rw [if_pos hin] at hless
      rw [List.countP_cons_of_pos hin]
      omega
    · rw [if_neg hin] at hless
      rw [List.countP_cons_of_neg hin, ← hless]
      exact hle

/-- As long as a traversal whose consumer has left is not over, a worker can make a step. -/
theorem Coherent.works_of_gone (h : scene.Coherent) (hrun : scene.runs[number]? = some run)
    (hgone : run.consumer = .gone) (hover : ¬run.Over) :
    ∃ actor : Actor n, actor.works = true ∧
      (scene.step? (.inside number actor)).isSome = true := by
  obtain ⟨actor, hworks, hstep⟩ := (h.runs number run hrun).works_of_gone hgone hover
  refine ⟨actor, hworks, ?_⟩
  simp only [step?, hrun, Option.isSome_map]
  exact hstep

theorem Reachable.over_of_run (h : scene.Reachable) (hrun : scene.runs[number]? = some run)
    (hover : run.Over) : scene.Over number :=
  ⟨⟨run, hrun, hover⟩, h.not_heldBy_worker hrun hover.workers⟩

/-- The workers alone come to where a traversal whose consumer has left is over. -/
theorem Reachable.exists_over (h : scene.Reachable) (hrun : scene.runs[number]? = some run)
    (hgone : run.consumer = .gone) :
    ∃ actors : List (Actor n), (∀ actor ∈ actors, actor.works = true) ∧
      ∃ scene', scene.play (actors.map (.inside number)) = some scene' ∧ scene'.Over number := by
  induction hwork : run.work using Nat.strong_induction_on generalizing scene run with
  | h work ih =>
    by_cases hover : run.Over
    case pos => exact ⟨[], by simp, scene, rfl, h.over_of_run hrun hover⟩
    obtain ⟨actor, hworks, hsome⟩ := h.coherent.works_of_gone hrun hgone hover
    obtain ⟨next, hstep⟩ := Option.isSome_iff_exists.mp hsome
    obtain ⟨after, hafter, hbefore⟩ := h.coherent.before_of_step hstep hrun
    obtain ⟨after₁, hafter₁, hless⟩ := h.coherent.less_of_gone hrun hgone hstep
    rw [hafter] at hafter₁
    cases hafter₁
    rw [if_pos (by simp [Happening.isIn]), hwork] at hless
    obtain ⟨actors, hall, scene', hplay, hend⟩ :=
      ih after.work hless (.step _ h hstep) hafter (hbefore.gone hgone) rfl
    refine ⟨actor :: actors, ?_, scene', ?_, hend⟩
    · intro other hother
      rcases List.mem_cons.mp hother with rfl | hother
      · exact hworks
      · exact hall other hother
    · exact play_cons_eq_some_iff.mpr ⟨next, hstep, hplay⟩

/-- **A snapshot that is dropped stops everything.** Whatever has happened before the consumer
drops a snapshot, and however entries reach it: as long as a worker of this snapshot has not ended,
one of them can make a step; each of their steps leaves less work; and when none of them can go on,
all have ended, hold no lock and have written nothing. -/
theorem dropped_snapshots_wind_down (h : scene.Reachable) (hrun : scene.runs[number]? = some run)
    (hgone : run.consumer = .gone) : scene.WindsDown number run := by
  have hcoherent := h.coherent
  constructor
  case goesOn => exact hcoherent.works_of_gone hrun hgone
  case alone =>
    intro actor hstep
    simp only [step?, hrun, Option.isSome_map] at hstep
    exact (hcoherent.runs number run hrun).works_of_step? hgone hstep
  case less => exact fun happening scene' hstep => hcoherent.less_of_gone hrun hgone hstep
  case bounded =>
    intro happenings scene' hplay
    obtain ⟨run', hrun', -, hle⟩ := hcoherent.bounded_of_gone hrun hgone hplay
    exact ⟨run', hrun', hle⟩
  case stuck =>
    intro happenings scene' hplay hstuck
    obtain ⟨run', hrun', hgone', -⟩ := hcoherent.bounded_of_gone hrun hgone hplay
    have hreachable := h.play hplay
    apply hreachable.over_of_run hrun'
    by_contra hover
    obtain ⟨actor, hworks, hsome⟩ := hreachable.coherent.works_of_gone hrun' hgone' hover
    rw [hstuck actor hworks] at hsome
    cases hsome
  case comes => exact h.exists_over hrun hgone
  case tables => exact fun happenings scene' hplay => hcoherent.table_of_play hplay

/-- Two shards with two entries each, from hand to hand. The consumer drops the snapshot after one
entry, while one worker is through, the other one is not, and the merging worker has the next entry
in its hand. -/
theorem dropped_snapshots_wind_down_midway :
    let cells : Cells 2 Nat := fun i =>
      if i = 0 then { table := ((∅ : Table Nat).insert "a" 1).insert "b" 2 }
      else { table := ((∅ : Table Nat).insert "c" 3).insert "d" 4 }
    let actors : List (Actor 2) := [.asker, .asker, .asker, .worker 1, .worker 1, .worker 0,
      .worker 0, .asker, .asker, .asker, .worker 0, .worker 0, .worker 0, .worker 0, .worker 1,
      .merger, .ask, .merger, .merger, .leave]
    ∃ (scene : Scene 2 Nat) (run : Traversal 2 Nat),
      play { cells } (.opening .handed :: actors.map (.inside 0)) = some scene ∧
      scene.Reachable ∧ scene.runs[0]? = some run ∧ run.consumer = .gone ∧
      run.received = [("a", 1)] ∧ run.workers 0 = .ended ∧ run.workers 1 = .copying 1 ∧
      ¬run.Over ∧ (scene.cells 1).lock.HeldBy (.worker 0 1) ∧ scene.WindsDown 0 run := by
  intro cells actors
  have hend : ((play { cells } (.opening .handed :: actors.map (.inside 0))).bind fun scene =>
      scene.runs[0]?.map fun run => (run.consumer, run.received, run.workers 0, run.workers 1,
        (scene.cells 1).lock)) =
      some (.gone, [("a", 1)], .ended, .copying 1, { readers := [.worker 0 1] }) := by
    decide +kernel
  obtain ⟨scene, hplay, hmap⟩ := Option.bind_eq_some_iff.mp hend
  obtain ⟨run, hrun, hfacts⟩ := Option.map_eq_some_iff.mp hmap
  simp only [Prod.mk.injEq] at hfacts
  obtain ⟨hgone, hreceived, hworker, hworker', hlock⟩ := hfacts
  have hrest : cells.AtRest := by
    intro i
    simp only [cells]
    split <;> rfl
  have hreachable : scene.Reachable := (Reachable.start cells hrest).play hplay
  have hover : ¬run.Over := by
    intro hover
    rw [hover.workers 1] at hworker'
    cases hworker'
  have hheld : (scene.cells 1).lock.HeldBy (.worker 0 1) := by
    rw [hlock]
    exact .inl List.mem_cons_self
  exact ⟨scene, run, hplay, hreachable, hrun, hgone, hreceived, hworker, hworker', hover, hheld,
    dropped_snapshots_wind_down hreachable hrun hgone⟩

end Scene

end ShardStore
