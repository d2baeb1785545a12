import ShardStore.Proofs.Traversals.Work

/-!
# What a snapshot is

Whatever happens in whatever order, a snapshot is the tables of the shards as its workers found them
when they took their locks (`Scene.TookLock`), listed shard by shard. The asking thread never gives
up and knows the number of entries when it returns; from then on nothing that others do changes what
the consumer will get. A consumer that goes on reading is told after finitely many steps that there
is no more, and has got everything by then. How the entries reach it makes no difference.
-/

namespace ShardStore

namespace Traversal

variable {n : Nat} {V : Type} {cells cells' : Cells n V} {number : Nat} {run run' : Traversal n V}

/-- A worker captures what it finds when it takes its lock. -/
theorem Coherent.captured_of_locked (h : run.Coherent cells number)
    (hmove : Move cells number run cells' run') {i : Fin n} (hlocked : run'.workers i = .locked) :
    run'.captured i = some (cells i).table := by
  rw [(h.move hmove).guarded.current i (by rw [hlocked]; rfl), hmove.table_eq]

/-- A table that was not captured before a move is captured by a worker that takes its lock. -/
theorem Coherent.started_of_captured (h : run.Coherent cells number)
    (hmove : Move cells number run cells' run') {i : Fin n} (hbefore : run.captured i = none)
    (hafter : (run'.captured i).isSome = true) :
    run.workers i = .started ∧ run'.workers i = .locked := by
  have hnot := h.guarded.captured i
  have hlocked := (h.move hmove).guarded.captured i
  rw [hbefore] at hnot
  rw [hafter] at hlocked
  rcases hmove.worker_next h.collecting i with hsame | hnext
  · rw [hsame, ← hnot] at hlocked
    cases hlocked
  · generalize run.workers i = worker at hnot hnext
    generalize run'.workers i = worker' at hlocked hnext
    cases hnext with
    | lock => exact ⟨rfl, rfl⟩
    | start => cases hlocked
    | _ => cases hnot

end Traversal

namespace Scene

variable {n : Nat} {V : Type} {scene scene' : Scene n V} {number : Nat}
  {run run' : Traversal n V}

/-- On the way to this scene the worker of shard `i` took its lock and found `table`. -/
def TookLock (scene : Scene n V) (number : Nat) (i : Fin n) (table : Table V) : Prop :=
  ∃ (before after : Scene n V) (happening : Happening n V) (happenings : List (Happening n V))
    (run run' : Traversal n V),
    before.Reachable ∧ before.step? happening = some after ∧ after.play happenings = some scene ∧
      before.runs[number]? = some run ∧ run.workers i = .started ∧
      after.runs[number]? = some run' ∧ run'.workers i = .locked ∧ (before.cells i).table = table

theorem TookLock.step {i : Fin n} {table : Table V} {happening : Happening n V}
    (h : scene.TookLock number i table) (hstep : scene.step? happening = some scene') :
    scene'.TookLock number i table := by
  obtain ⟨before, after, lock, happenings, run, run', hreachable, hlock, hplay, hrest⟩ := h
  exact ⟨before, after, lock, _, run, run', hreachable, hlock, play_concat hplay hstep, hrest⟩

/-- What a worker found when it took its lock is captured. -/
theorem TookLock.captured {i : Fin n} {table : Table V} (h : scene.TookLock number i table)
    (hrun : scene.runs[number]? = some run) : run.captured i = some table := by
  obtain ⟨before, after, lock, happenings, earlier, later, hreachable, hlock, hplay, hearlier,
    hstarted, hlater, hlocked, rfl⟩ := h
  have hbefore := hreachable.coherent
  have hcaptured : later.captured i = some (before.cells i).table := by
    rcases hbefore.step_cases hlock number with
      ⟨-, run₁, run₂, hrun₁, hrun₂, hmove⟩ | ⟨-, -, hsame | ⟨hnone, -⟩⟩
    · rw [hearlier] at hrun₁
      rw [hlater] at hrun₂
      cases hrun₁
      cases hrun₂
      exact (hbefore.runs number earlier hearlier).captured_of_locked hmove hlocked
    · rw [hlater, hearlier] at hsame
      cases hsame
      rw [hstarted] at hlocked
      cases hlocked
    · rw [hearlier] at hnone
      cases hnone
  obtain ⟨last, hlast, hpast⟩ := (hbefore.step hlock).before_of_play hplay hlater
  rw [hrun] at hlast
  cases hlast
  exact hpast.captured i _ hcaptured

/-- What is captured is what a worker found when it took its lock. -/
theorem Reachable.tookLock (h : scene.Reachable) (hrun : scene.runs[number]? = some run)
    {i : Fin n} {table : Table V} (hcaptured : run.captured i = some table) :
    scene.TookLock number i table := by
  induction h generalizing run with
  | start cells hrest => cases hrun
  | @step scene scene' happening hreachable hstep ih =>
    have hcoherent := hreachable.coherent
    rcases hcoherent.step_cases hstep number with
      ⟨-, before, after, hbefore, hafter, hmove⟩ | ⟨-, -, hsame | ⟨-, delivery, hnew⟩⟩
    · rw [hrun] at hafter
      cases hafter
      have hrest := hcoherent.runs number before hbefore
      -- Either it was captured before, or this is the step in which it is.
      cases hcase : before.captured i with
      | some other =>
        rw [hrest.guarded.captured_eq hmove hcase] at hcaptured
        cases hcaptured
        exact (ih hbefore hcase).step hstep
      | none =>
        obtain ⟨hstarted, hlocked⟩ :=
          hrest.started_of_captured hmove hcase (by rw [hcaptured]; rfl)
        rw [hrest.captured_of_locked hmove hlocked] at hcaptured
        exact ⟨scene, scene', happening, [], before, run, hreachable, hstep, rfl, hbefore, hstarted,
          hrun, hlocked, Option.some.inj hcaptured⟩
    · rw [hsame] at hrun
      exact (ih hrun hcaptured).step hstep
    · rw [hrun] at hnew
      cases hnew
      cases hcaptured

/-! ## The statement -/

/-- What holds of the traversal number `number` of a scene. -/
structure Delivers (scene : Scene n V) (number : Nat) (run : Traversal n V) : Prop where
  /-- The asking thread does not give up. -/
  uninterrupted : ∀ reported, run.asker ≠ .interrupted reported
  /-- What is captured from a shard is the table that its worker found when it took its lock. -/
  captured : ∀ i table, run.captured i = some table ↔ scene.TookLock number i table
  /-- What the consumer got are the first of the captured entries, shard by shard. -/
  beginning : run.received <+: run.all
  /-- The consumer is told that there is no more only after all of them. -/
  complete : 0 < run.ends → run.received = run.all
  /-- When the asking thread returns, all tables are captured and it knows how many entries there
  are. -/
  returned : ∀ total, run.asker = .returned total →
    (∀ i, (run.captured i).isSome = true) ∧ total = run.all.length
  /-- What others do after it has returned changes nothing about them. -/
  settled : ∀ total, run.asker = .returned total → ∀ happenings scene' run',
    scene.play happenings = some scene' → scene'.runs[number]? = some run' → run'.all = run.all
  /-- Unless the consumer has left, somebody other than a leaving consumer can make a step, or the
  asking thread has not returned and a worker waits for a thread outside that writes. -/
  goesOn : run.consumer ≠ .gone → run.GoesOn scene.cells number ∨
    (∀ total, run.asker ≠ .returned total) ∧ ∃ i thread, run.workers i = .started ∧
      (scene.cells i).lock.writer = some (.other thread)
  /-- After so many steps in the traversal the consumer has been told that there is no more. -/
  ends : ∀ total, run.asker = .returned total → ∀ happenings scene' run',
    scene.play happenings = some scene' → scene'.runs[number]? = some run' →
      run.work < happenings.countP (Happening.isIn number) → 0 < run'.ends

/-- Two traversals that have captured the same deliver the same, whichever way. -/
theorem Delivers.received_eq {other : Scene n V} {number' : Nat} (h : scene.Delivers number run)
    (h' : other.Delivers number' run') (hcaptured : run'.captured = run.captured)
    (hends : 0 < run.ends) (hends' : 0 < run'.ends) : run'.received = run.received := by
  have hentries : run'.entries = run.entries := by
    funext i
    rw [Traversal.entries, Traversal.entries, hcaptured]
  rw [h.complete hends, h'.complete hends', Traversal.all, Traversal.all, hentries]

theorem Reachable.delivers (h : scene.Reachable) (hrun : scene.runs[number]? = some run) :
    scene.Delivers number run := by
  have hscene := h.coherent
  have hcoherent := hscene.runs number run hrun
  have hall (total : Nat) (hasker : run.asker = .returned total) (i : Fin n) :
      (run.captured i).isSome = true := by
    rw [hcoherent.guarded.captured]
    exact Worker.hasLocked_of_hasReported (hcoherent.hasReported hasker i)
  constructor
  case uninterrupted => exact hcoherent.collecting.ne_interrupted
  case captured =>
    exact fun i table => ⟨h.tookLock hrun, fun htook => htook.captured hrun⟩
  case beginning => exact hcoherent.flowing.beginning
  case complete => exact hcoherent.flowing.complete
  case returned =>
    intro total hasker
    exact ⟨hall total hasker, (hcoherent.collecting.of_returned hasker).2⟩
  case settled =>
    intro total hasker happenings scene' run' hplay hrun'
    obtain ⟨last, hlast, hbefore⟩ := hscene.before_of_play hplay hrun
    rw [hrun'] at hlast
    cases hlast
    refine List.flatMap_congr fun i _ => ?_
    obtain ⟨table, htable⟩ := Option.isSome_iff_exists.mp (hall total hasker i)
    rw [Traversal.entries, Traversal.entries, htable, hbefore.captured i table htable]
  case goesOn =>
    intro hconsumer
    rcases hcoherent.goesOn hconsumer with hgoes | ⟨i, hstarted, hheld⟩
    · exact .inl hgoes
    · obtain ⟨thread, hwriter⟩ := hscene.consistent.exists_writer hheld
      refine .inr ⟨fun total hasker => ?_, i, thread, hstarted, hwriter⟩
      have hreported := hcoherent.hasReported hasker i
      rw [hstarted] at hreported
      cases hreported
  case ends =>
    intro total hasker happenings scene' run' hplay hrun' hmany
    by_contra hnot
    have hle := hscene.countP_add_work_le hplay hrun hrun' hasker (by omega)
    omega

/-- **A snapshot is the tables that its workers found.** In whatever order things happen, every
traversal delivers the tables that its workers found when they took their locks, shard by shard and
all of it; and two traversals that have captured the same deliver the same, whether over a channel
with room for all entries or from hand to hand. -/
theorem snapshots_deliver_what_was_captured (h : scene.Reachable)
    (hrun : scene.runs[number]? = some run) :
    scene.Delivers number run ∧
      ∀ (other : Scene n V) (number' : Nat) (run' : Traversal n V), other.Reachable →
        other.runs[number']? = some run' → run'.captured = run.captured → 0 < run.ends →
        0 < run'.ends → run'.received = run.received :=
  ⟨h.delivers hrun, fun _ _ _ hother hrun' hcaptured hends hends' =>
    (h.delivers hrun).received_eq (hother.delivers hrun') hcaptured hends hends'⟩

/-- Two shards with an entry each, from hand to hand. When the asking thread has returned, another
thread replaces the second shard's table, of which the consumer sees nothing. -/
theorem snapshots_deliver_what_was_captured_before_a_write :
    let cells : Cells 2 Nat := fun i =>
      if i = 0 then { table := (∅ : Table Nat).insert "a" 1 }
      else { table := (∅ : Table Nat).insert "b" 2 }
    let capture : List (Actor 2) := [.asker, .asker, .asker, .worker 1, .worker 1, .asker,
      .worker 1, .worker 1, .worker 1, .worker 0, .worker 0, .asker, .asker]
    let write : List (Outside 2 Nat) := [.lock ⟨0, 0⟩ 1 .exclusive,
      .write ⟨0, 0⟩ 1 ((∅ : Table Nat).insert "c" 3), .unlock ⟨0, 0⟩ 1 .exclusive]
    let read : List (Actor 2) := [.worker 0, .worker 0, .worker 0, .merger, .ask, .merger, .merger,
      .merger, .ask, .merger, .merger, .merger, .ask, .take]
    ∃ (scene : Scene 2 Nat) (run : Traversal 2 Nat),
      play { cells } (.opening .handed :: capture.map (.inside 0) ++ write.map .outside ++
        read.map (.inside 0)) = some scene ∧
      scene.Reachable ∧ scene.runs[0]? = some run ∧ run.received = [("a", 1), ("b", 2)] ∧
      0 < run.ends ∧ scene.Delivers 0 run ∧
      ∀ (other : Scene 2 Nat) (number' : Nat) (run' : Traversal 2 Nat), other.Reachable →
        other.runs[number']? = some run' → run'.captured = run.captured → 0 < run.ends →
        0 < run'.ends → run'.received = run.received := by
  intro cells capture write read
  have hend : ((play { cells } (.opening .handed :: capture.map (.inside 0) ++
      write.map .outside ++ read.map (.inside 0))).bind fun scene =>
        scene.runs[0]?.map fun run => (run.received, run.ends)) =
      some ([("a", 1), ("b", 2)], 1) := by
    decide +kernel
  obtain ⟨scene, hplay, hmap⟩ := Option.bind_eq_some_iff.mp hend
  obtain ⟨run, hrun, hgot⟩ := Option.map_eq_some_iff.mp hmap
  obtain ⟨hreceived, hends⟩ := Prod.mk.inj hgot
  have hrest : cells.AtRest := by
    intro i
    simp only [cells]
    split <;> rfl
  have hreachable : scene.Reachable := (Reachable.start cells hrest).play hplay
  exact ⟨scene, run, hplay, hreachable, hrun, hreceived, by omega,
    snapshots_deliver_what_was_captured hreachable hrun⟩

end Scene

end ShardStore
