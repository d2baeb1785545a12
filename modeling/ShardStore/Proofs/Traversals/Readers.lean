import ShardStore.Proofs.Traversals.Room

/-!
# Who reads

Which locks the workers hold can be told from their stages: among the readers of a shard, besides
other threads, are the workers of this shard that hold its lock, each once (`Scene.Tracked`). So if
nobody else holds the lock, one of the workers does or a writer is granted it
(`Scene.Reachable.exists_holds`).
-/

namespace ShardStore

namespace Cells

variable {n : Nat} {V : Type} {cells cells' : Cells n V}

theorem count_take (cells : Cells n V) (i : Fin n) (holder other : Holder) (k : Fin n) :
    (Function.update cells i { cells i with lock := (cells i).lock.take holder .shared }
      k).lock.readers.count other =
      (cells k).lock.readers.count other + if k = i ∧ holder = other then 1 else 0 := by
  by_cases hk : k = i
  · subst hk
    simp [Lock.take, List.count_cons]
  · simp [hk]

theorem count_release (cells : Cells n V) (i : Fin n) (holder other : Holder) (k : Fin n) :
    (cells.release holder i .shared k).lock.readers.count other =
      (cells k).lock.readers.count other - if k = i ∧ holder = other then 1 else 0 := by
  by_cases hk : k = i
  · subst hk
    simp only [release, Function.update_self, Lock.release, List.count_erase, beq_iff_eq, true_and]
  · simp [release, hk]

/-- Acts from outside leave the workers among the readers where they are. -/
theorem count_outside? {act : Outside n V} (hact : cells.outside? act = some cells') (i : Fin n)
    (number j : Nat) : (cells' i).lock.readers.count (.worker number j) =
      (cells i).lock.readers.count (.worker number j) := by
  have hupdate (k : Fin n) (cell : Cell V) (hreaders : cell.lock.readers = (cells k).lock.readers) :
      (Function.update cells k cell i).lock.readers.count (.worker number j) =
        (cells i).lock.readers.count (.worker number j) := by
    by_cases hik : i = k
    · subst hik
      rw [Function.update_self, hreaders]
    · rw [Function.update_of_ne hik]
  cases act with
  | lock thread k access =>
    simp only [Cells.outside?, take?] at hact
    split at hact
    · cases hact
      cases access with
      | shared => rw [count_take, if_neg (by simp), Nat.add_zero]
      | exclusive => exact hupdate k _ rfl
    · cases hact
  | unlock thread k access =>
    cases access with
    | shared =>
      simp only [Cells.outside?] at hact
      split at hact
      · cases hact
        rw [count_release, if_neg (by simp), Nat.sub_zero]
      · cases hact
    | exclusive =>
      simp only [Cells.outside?] at hact
      split at hact
      · cases hact
        exact hupdate k _ rfl
      · cases hact
  | write thread k table =>
    simp only [Cells.outside?] at hact
    split at hact
    · cases hact
      exact hupdate k _ rfl
    · cases hact

end Cells

namespace Traversal

variable {n : Nat} {V : Type} {cells cells' : Cells n V} {number : Nat} {run run' : Traversal n V}

/-- Moves in a traversal leave the workers of others among the readers where they are. -/
theorem Move.count_of_ne (hmove : Move cells number run cells' run') {other : Nat}
    (hother : other ≠ number) (i : Fin n) (j : Nat) :
    (cells' i).lock.readers.count (.worker other j) =
      (cells i).lock.readers.count (.worker other j) := by
  have hne (k : Fin n) : ¬(i = k ∧ Holder.worker number k = Holder.worker other j) :=
    fun heq => hother (Holder.worker.inj heq.2).1.symm
  cases hmove with
  | lock hworker hgrants => rw [Cells.count_take, if_neg (hne _), Nat.add_zero]
  | unlock hworker => rw [Cells.count_release, if_neg (hne _), Nat.sub_zero]
  | _ => rfl

/-- Of the workers of a traversal, those that hold a lock stand among its readers, each once. -/
def Tracked (workers : Fin n → Worker) (cells : Cells n V) (number : Nat) : Prop :=
  ∀ (i : Fin n) (j : Nat), (cells i).lock.readers.count (.worker number j) =
    if j = i.val ∧ (workers i).holds = true then 1 else 0

theorem Tracked.enter (h : Tracked run.workers cells number) {i : Fin n} {worker : Worker}
    (hholds : worker.holds = (run.workers i).holds) :
    Tracked (Function.update run.workers i worker) cells number := by
  intro k j
  rw [h k j]
  by_cases hk : k = i
  · subst hk
    rw [Function.update_self, hholds]
  · rw [Function.update_of_ne hk]

/-- Moves in a traversal keep track of its workers. -/
theorem Tracked.move (h : Tracked run.workers cells number) (hcollecting : run.Collecting)
    (hmove : Move cells number run cells' run') : Tracked run'.workers cells' number := by
  cases hmove with
  | @start next hasker hlt =>
    exact h.enter (by rw [hcollecting.absent_of_starting next hlt hasker]; rfl)
  | @lock i hworker hgrants =>
    intro k j
    rw [Cells.count_take, h k j]
    by_cases hk : k = i
    · subst hk
      simp [hworker, Worker.holds, eq_comm]
    · simp [hk]
  | report hworker hopen hroom => exact h.enter (by rw [hworker]; rfl)
  | withhold hworker hclosed => exact h.enter (by rw [hworker]; rfl)
  | send hworker hentry hopen hroom => exact h.enter (by rw [hworker]; rfl)
  | close hworker hwhy => exact h.enter (by rw [hworker]; rfl)
  | @unlock i hworker =>
    intro k j
    rw [Cells.count_release, h k j]
    by_cases hk : k = i
    · subst hk
      simp [hworker, Worker.holds, eq_comm]
    · simp [hk]
  | _ => exact h

/-- The actors of a traversal leave other threads their locks. -/
theorem Move.heldBy_other_iff (hmove : Move cells number run cells' run') (i : Fin n)
    (thread : ThreadId) : (cells' i).lock.HeldBy (.other thread) ↔
      (cells i).lock.HeldBy (.other thread) := by
  have hupdate {k : Fin n} {cell : Cell V} (hreaders : .other thread ∈ cell.lock.readers ↔
      .other thread ∈ (cells k).lock.readers) (hwriter : cell.lock.writer = (cells k).lock.writer) :
      (Function.update cells k cell i).lock.HeldBy (.other thread) ↔
        (cells i).lock.HeldBy (.other thread) := by
    by_cases hik : i = k
    · subst hik
      rw [Function.update_self, Lock.HeldBy, Lock.HeldBy, hreaders, hwriter]
    · rw [Function.update_of_ne hik]
  cases hmove with
  | lock hworker hgrants => exact hupdate (by simp [Lock.take]) rfl
  | unlock hworker => exact hupdate (by simp [Lock.release, List.mem_erase_of_ne]) rfl
  | _ => exact Iff.rfl

end Traversal

namespace Scene

variable {n : Nat} {V : Type} {scene scene' : Scene n V} {number : Nat}

/-- The stages of the workers of a traversal, all absent before it is opened. -/
def workers (scene : Scene n V) (number : Nat) : Fin n → Worker :=
  scene.runs[number]?.elim (fun _ => .absent) Traversal.workers

theorem workers_eq {run : Traversal n V} (h : scene.runs[number]? = some run) :
    scene.workers number = run.workers := by
  rw [workers, h]
  rfl

/-- The workers that hold a lock stand among its readers, each once, and no others. -/
def Tracked (scene : Scene n V) : Prop :=
  ∀ number, Traversal.Tracked (scene.workers number) scene.cells number

theorem Tracked.step (h : scene.Tracked) (hcoherent : scene.Coherent)
    {happening : Happening n V} (hstep : scene.step? happening = some scene') :
    scene'.Tracked := by
  intro number
  cases happening with
  | outside act =>
    obtain ⟨cells, hact, rfl⟩ := Option.map_eq_some_iff.mp hstep
    exact fun i j => (Cells.count_outside? hact i number j).trans (h number i j)
  | opening delivery =>
    cases hstep
    have hsame : workers { scene with runs := scene.runs ++ [{ delivery }] } number =
        scene.workers number := by
      unfold workers
      rcases Nat.lt_trichotomy number scene.runs.length with hlt | heq | hgt
      · rw [List.getElem?_append_left hlt]
      · -- Nobody has begun with the new traversal.
        rw [heq, List.getElem?_concat_length, List.getElem?_eq_none (Nat.le_refl _)]
        rfl
      · rw [List.getElem?_eq_none (Nat.le_of_lt hgt), List.getElem?_eq_none]
        rw [List.length_append, List.length_singleton]
        exact hgt
    rw [hsame]
    exact h number
  | inside other actor =>
    simp only [step?] at hstep
    split at hstep
    · cases hstep
    · next run hrun =>
      obtain ⟨⟨cells, run'⟩, hactor, rfl⟩ := Option.map_eq_some_iff.mp hstep
      have hmove := Traversal.move_of_step? hactor
      by_cases hother : number = other
      · subst hother
        have hrun' : (scene.runs.set number run')[number]? = some run' :=
          List.getElem?_set_self (List.getElem?_eq_some_iff.mp hrun).1
        have htracked := h number
        rw [workers_eq hrun] at htracked
        rw [workers_eq hrun']
        exact htracked.move (hcoherent.runs number run hrun).collecting hmove
      · intro i j
        rw [hmove.count_of_ne hother, h number i j, workers, workers,
          List.getElem?_set_ne (Ne.symm hother)]

theorem Reachable.tracked (h : scene.Reachable) : scene.Tracked := by
  induction h with
  | start cells hrest =>
    intro number i j
    simp [hrest i, Lock.free, workers, Worker.holds]
  | step happening hreachable hstep ih => exact ih.step hreachable.coherent hstep

/-- A lock that no thread outside holds is held by a worker of its shard, unless it is granted to a
writer. -/
theorem Reachable.exists_holds (h : scene.Reachable) {i : Fin n}
    (hother : ∀ thread, ¬(scene.cells i).lock.HeldBy (.other thread))
    (hgrants : (scene.cells i).lock.grants .exclusive = false) :
    ∃ (number : Nat) (run : Traversal n V), scene.runs[number]? = some run ∧
      (run.workers i).holds = true := by
  obtain ⟨holder, hholder⟩ := Lock.exists_heldBy_of_grants_eq_false hgrants
  cases holder with
  | other thread => exact absurd hholder (hother thread)
  | worker number j =>
    have hreader := hholder.resolve_right ((h.coherent.consistent i).2 number j)
    have hpos := List.count_pos_iff.mpr hreader
    rw [h.tracked number i j] at hpos
    have hholds : (scene.workers number i).holds = true := by
      by_contra hnot
      rw [if_neg fun hboth => hnot hboth.2] at hpos
      exact Nat.lt_irrefl 0 hpos
    rw [workers] at hholds
    cases hrun : scene.runs[number]? with
    | none => rw [hrun] at hholds; cases hholds
    | some run => rw [hrun] at hholds; exact ⟨number, run, hrun, hholds⟩

end Scene

end ShardStore
