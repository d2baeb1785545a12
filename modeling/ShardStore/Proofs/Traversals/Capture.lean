import ShardStore.Proofs.Traversals.Moves

/-!
# What workers capture

A worker holds its shard's lock from the moment at which its table is captured until it has nothing
more to send. Nobody can write meanwhile, so at each of its sends it still reads the captured table
(`Traversal.Guarded`), whatever the other threads and the other traversals do.
-/

namespace ShardStore

/-- Whether a worker holds its lock. -/
def Worker.holds : Worker → Bool
  | .locked => true
  | .copying _ => true
  | .closed => true
  | _ => false

/-- Whether a worker has taken its lock, and may have given it back. -/
def Worker.hasLocked : Worker → Bool
  | .absent => false
  | .started => false
  | _ => true

namespace Cells

variable {n : Nat} {V : Type} {cells cells' : Cells n V}

/-- Readers and a writer never hold a lock together, and workers are not among the writers. -/
def Consistent (cells : Cells n V) : Prop :=
  ∀ i, (cells i).lock.Consistent ∧ ∀ run j, (cells i).lock.writer ≠ some (.worker run j)

/-- Whoever holds a lock as `holder` still holds it, and the table is the same. -/
def Spares (cells cells' : Cells n V) (holder : Fin n → Holder) : Prop :=
  ∀ i, holder i ∈ (cells i).lock.readers →
    holder i ∈ (cells' i).lock.readers ∧ (cells' i).table = (cells i).table

theorem Consistent.update (h : cells.Consistent) (i : Fin n) (cell : Cell V)
    (hcell : cell.lock.Consistent) (hwriter : ∀ run j, cell.lock.writer ≠ some (.worker run j)) :
    Consistent (Function.update cells i cell) := by
  intro j
  by_cases hj : j = i
  · subst hj
    rw [Function.update_self]
    exact ⟨hcell, hwriter⟩
  · rw [Function.update_of_ne hj]
    exact h j

/-- A lock that workers cannot read under is held by a writer outside. -/
theorem Consistent.exists_writer (h : cells.Consistent) {i : Fin n}
    (hgrants : (cells i).lock.grants .shared = false) :
    ∃ thread, (cells i).lock.writer = some (.other thread) := by
  rw [Lock.grants, Option.isNone_eq_false_iff, Option.isSome_iff_exists] at hgrants
  obtain ⟨holder, hholder⟩ := hgrants
  cases holder with
  | worker run j => exact absurd hholder ((h i).2 run j)
  | other thread => exact ⟨thread, hholder⟩

theorem spares_update {i : Fin n} {cell : Cell V} {holder : Fin n → Holder}
    (hcell : holder i ∈ (cells i).lock.readers →
      holder i ∈ cell.lock.readers ∧ cell.table = (cells i).table) :
    cells.Spares (Function.update cells i cell) holder := by
  intro j hj
  by_cases hji : j = i
  · subst hji
    rw [Function.update_self]
    exact hcell hj
  · rw [Function.update_of_ne hji]
    exact ⟨hj, rfl⟩

/-- Another holder taking a lock leaves the readers where they are. -/
theorem spares_take (cells : Cells n V) (i : Fin n) (other : Holder) (access : Access)
    (holder : Fin n → Holder) :
    cells.Spares (Function.update cells i
      { cells i with lock := (cells i).lock.take other access }) holder := by
  refine spares_update fun hmem => ⟨?_, rfl⟩
  cases access with
  | shared => exact List.mem_cons_of_mem _ hmem
  | exclusive => exact hmem

/-- Another holder giving a lock back leaves the other readers where they are. -/
theorem spares_release (cells : Cells n V) (i : Fin n) {other : Holder} (access : Access)
    {holder : Fin n → Holder} (hne : holder i ≠ other) :
    cells.Spares (cells.release other i access) holder := by
  refine spares_update fun hmem => ⟨?_, rfl⟩
  cases access with
  | shared => exact (List.mem_erase_of_ne hne).mpr hmem
  | exclusive => exact hmem

/-- Acts from outside keep the locks consistent, and leave workers and what they read alone. -/
theorem Consistent.outside? (h : cells.Consistent) {act : Outside n V}
    (hact : cells.outside? act = some cells') :
    cells'.Consistent ∧ ∀ number, cells.Spares cells' fun i => .worker number i := by
  cases act with
  | lock thread i access =>
    simp only [Cells.outside?, take?] at hact
    split at hact
    · next hgrants =>
      cases hact
      refine ⟨h.update i _ (Lock.consistent_take hgrants _) fun run j => ?_,
        fun number => spares_take cells i _ _ _⟩
      cases access with
      | shared => exact (h i).2 run j
      | exclusive => simp [Lock.take]
    · cases hact
  | unlock thread i access =>
    have hrelease (access : Access) : (cells.release (.other thread) i access).Consistent ∧
        ∀ number, cells.Spares (cells.release (.other thread) i access)
          fun j => .worker number j := by
      refine ⟨h.update i _ (Lock.consistent_release (h i).1 _ _) fun run j => ?_,
        fun number => spares_release cells i access (by simp)⟩
      cases access with
      | shared => exact (h i).2 run j
      | exclusive => simp [Lock.release]
    cases access with
    | shared =>
      simp only [Cells.outside?] at hact
      split at hact
      · cases hact; exact hrelease .shared
      · cases hact
    | exclusive =>
      simp only [Cells.outside?] at hact
      split at hact
      · cases hact; exact hrelease .exclusive
      · cases hact
  | write thread i table =>
    simp only [Cells.outside?] at hact
    split at hact
    · next hwriter =>
      cases hact
      refine ⟨h.update i _ (h i).1 (h i).2, fun number => spares_update fun hmem => ?_⟩
      -- A writer holds the lock, so no worker does.
      have hnone := (h i).1 (by rw [hwriter]; exact Option.some_ne_none _)
      rw [hnone] at hmem
      exact absurd hmem List.not_mem_nil
    · cases hact

/-- Acts from outside that are no writes leave the tables alone. -/
theorem table_of_outside? {act : Outside n V} (hact : cells.outside? act = some cells')
    (hquiet : ∀ thread i table, act ≠ .write thread i table) (i : Fin n) :
    (cells' i).table = (cells i).table := by
  have hupdate (j : Fin n) (lock : Lock Holder) :
      (Function.update cells j { cells j with lock } i).table = (cells i).table := by
    by_cases hij : i = j
    · subst hij
      rw [Function.update_self]
    · rw [Function.update_of_ne hij]
  cases act with
  | lock thread j access =>
    simp only [Cells.outside?, take?] at hact
    split at hact
    · cases hact
      exact hupdate j _
    · cases hact
  | unlock thread j access =>
    cases access with
    | shared =>
      simp only [Cells.outside?] at hact
      split at hact
      · cases hact
        exact hupdate j _
      · cases hact
    | exclusive =>
      simp only [Cells.outside?] at hact
      split at hact
      · cases hact
        exact hupdate j _
      · cases hact
  | write thread j table => exact absurd rfl (hquiet thread j table)

end Cells

namespace Traversal

variable {n : Nat} {V : Type} {cells cells' : Cells n V} {number : Nat} {run run' : Traversal n V}

/-- The entries captured from a shard, none before its worker has taken the lock. -/
def entries (run : Traversal n V) (i : Fin n) : List (String × V) :=
  match run.captured i with
  | some table => table.toList
  | none => []

/-- All captured entries, shard by shard. -/
def all (run : Traversal n V) : List (String × V) :=
  (List.finRange n).flatMap run.entries

/-- The workers of a traversal guard what they have captured. -/
structure Guarded (run : Traversal n V) (cells : Cells n V) (number : Nat) : Prop where
  held : ∀ i, (run.workers i).holds = true → .worker number i ∈ (cells i).lock.readers
  current : ∀ i, (run.workers i).holds = true → run.captured i = some (cells i).table
  /-- A table is captured when a worker has taken its lock. -/
  captured : ∀ i, (run.captured i).isSome = (run.workers i).hasLocked

/-- A worker that holds its lock reads what was captured. -/
theorem Guarded.toList_eq (h : run.Guarded cells number) {i : Fin n}
    (hholds : (run.workers i).holds = true) : (cells i).table.toList = run.entries i := by
  rw [entries, h.current i hholds]

theorem Guarded.size_eq (h : run.Guarded cells number) {i : Fin n}
    (hholds : (run.workers i).holds = true) : (cells i).table.size = (run.entries i).length := by
  rw [← h.toList_eq hholds, Std.ExtTreeMap.length_toList]

/-- Others leave a traversal's guard alone. -/
theorem Guarded.frame (h : run.Guarded cells number)
    (hspares : cells.Spares cells' fun i => .worker number i) : run.Guarded cells' number where
  held i hholds := (hspares i (h.held i hholds)).1
  current i hholds := by rw [h.current i hholds, (hspares i (h.held i hholds)).2]
  captured := h.captured

/-- Other workers change nothing that concerns the guard, if a worker enters a stage at which it
holds the lock just as before. -/
theorem Guarded.enter (h : run.Guarded cells number) {i : Fin n} {worker : Worker}
    (hholds : worker.holds = true → (run.workers i).holds = true)
    (hlocked : worker.hasLocked = (run.workers i).hasLocked)
    (hworkers : run'.workers = Function.update run.workers i worker)
    (hcaptured : run'.captured = run.captured) : run'.Guarded cells number := by
  have hworker (j : Fin n) : ((run'.workers j).holds = true → (run.workers j).holds = true) ∧
      (run'.workers j).hasLocked = (run.workers j).hasLocked := by
    rw [hworkers]
    by_cases hj : j = i
    · subst hj
      rw [Function.update_self]
      exact ⟨hholds, hlocked⟩
    · rw [Function.update_of_ne hj]
      exact ⟨id, rfl⟩
  refine ⟨fun j hj => h.held j ((hworker j).1 hj), fun j hj => ?_, fun j => ?_⟩
  · rw [hcaptured]
    exact h.current j ((hworker j).1 hj)
  · rw [hcaptured, (hworker j).2]
    exact h.captured j

/-- A move in a traversal keeps the locks consistent and leaves other traversals' workers alone. -/
theorem Move.consistent (hmove : Move cells number run cells' run') (h : cells.Consistent) :
    cells'.Consistent ∧
      ∀ other, other ≠ number → cells.Spares cells' fun i => .worker other i := by
  have hsame : cells.Consistent ∧
      ∀ other, other ≠ number → cells.Spares cells fun i => .worker other i :=
    ⟨h, fun _ _ i hi => ⟨hi, rfl⟩⟩
  cases hmove with
  | lock hworker hgrants =>
    refine ⟨h.update _ _ (Lock.consistent_take hgrants _) (h _).2, fun _ _ => ?_⟩
    exact Cells.spares_take cells _ _ _ _
  | unlock hworker =>
    refine ⟨h.update _ _ (Lock.consistent_release (h _).1 _ _) (h _).2, fun other hother => ?_⟩
    exact Cells.spares_release cells _ _ fun heq => hother (Holder.worker.inj heq).1
  | _ => exact hsame

/-- The actors of a traversal write nothing. -/
theorem Move.table_eq (hmove : Move cells number run cells' run') (i : Fin n) :
    (cells' i).table = (cells i).table := by
  cases hmove with
  | @lock j hworker hgrants =>
    by_cases hj : i = j
    · subst hj
      rw [Function.update_self]
    · rw [Function.update_of_ne hj]
  | @unlock j hworker =>
    by_cases hj : i = j
    · subst hj
      rw [Cells.release, Function.update_self]
    · rw [Cells.release, Function.update_of_ne hj]
  | _ => rfl

/-- A move in a traversal keeps its guard, as long as every worker is started once. -/
theorem Guarded.move (h : run.Guarded cells number) (hmove : Move cells number run cells' run')
    (hstart : ∀ next (hlt : next < n), run.asker = .starting next →
      run.workers ⟨next, hlt⟩ = .absent) : run'.Guarded cells' number := by
  cases hmove with
  | @start next hasker hlt =>
    have habsent := hstart next hlt hasker
    exact h.enter (by simp [Worker.holds]) (by simp [Worker.hasLocked, habsent]) rfl rfl
  | @lock i hworker hgrants =>
    refine ⟨fun j hj => ?_, fun j hj => ?_, fun j => ?_⟩
    · by_cases hji : j = i
      · subst hji
        rw [Function.update_self]
        exact List.mem_cons_self
      · simp only [Function.update_of_ne hji] at hj ⊢
        exact h.held j hj
    · by_cases hji : j = i
      · subst hji
        simp only [Function.update_self]
      · simp only [Function.update_of_ne hji] at hj ⊢
        exact h.current j hj
    · by_cases hji : j = i
      · subst hji
        simp only [Function.update_self, Option.isSome_some, Worker.hasLocked]
      · simp only [Function.update_of_ne hji]
        exact h.captured j
  | report hworker hopen hroom =>
    exact h.enter (by simp [Worker.holds, hworker]) (by simp [Worker.hasLocked, hworker]) rfl rfl
  | withhold hworker hclosed =>
    exact h.enter (by simp [Worker.holds, hworker]) (by simp [Worker.hasLocked, hworker]) rfl rfl
  | send hworker hentry hopen hroom =>
    exact h.enter (by simp [Worker.holds, hworker]) (by simp [Worker.hasLocked, hworker]) rfl rfl
  | close hworker hwhy =>
    exact h.enter (by simp [Worker.holds, hworker]) (by simp [Worker.hasLocked, hworker]) rfl rfl
  | @unlock i hworker =>
    -- The other workers' holds are those of other holders.
    have hended : (run.workers i).hasLocked = true := by simp [Worker.hasLocked, hworker]
    refine ⟨fun j hj => ?_, fun j hj => ?_, fun j => ?_⟩
    · by_cases hji : j = i
      · subst hji
        simp [Worker.holds] at hj
      · simp only [Function.update_of_ne hji, Cells.release] at hj ⊢
        exact h.held j hj
    · by_cases hji : j = i
      · subst hji
        simp [Worker.holds] at hj
      · simp only [Function.update_of_ne hji, Cells.release] at hj ⊢
        exact h.current j hj
    · by_cases hji : j = i
      · subst hji
        rw [h.captured, hended]
        simp [Worker.hasLocked]
      · simp only [Function.update_of_ne hji]
        exact h.captured j
  | _ => exact ⟨h.held, h.current, h.captured⟩

/-- A captured table is never captured anew. -/
theorem Guarded.captured_eq (h : run.Guarded cells number)
    (hmove : Move cells number run cells' run') {i : Fin n} {table : Table V}
    (hcaptured : run.captured i = some table) : run'.captured i = some table := by
  cases hmove with
  | @lock j hworker hgrants =>
    have hne : i ≠ j := by
      rintro rfl
      have hlocked := h.captured i
      simp [hcaptured, hworker, Worker.hasLocked] at hlocked
    simp only [Function.update_of_ne hne]
    exact hcaptured
  | _ => exact hcaptured

end Traversal

end ShardStore
