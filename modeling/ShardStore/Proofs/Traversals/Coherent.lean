import ShardStore.Proofs.Traversals.Flow

/-!
# Scenes that can come about

What holds of one traversal while its own actors move (`Traversal.Coherent.move`) holds as well
while others do, as these leave its workers their locks (`Traversal.Coherent.frame`). So it holds of
all traversals in every scene that can come about (`Scene.Reachable.coherent`), in whatever order
things happen.

`Scene.play` lets a list of happenings happen. A traversal that is there stays there, and what
cannot be undone in it is not undone (`Scene.Coherent.before_of_play`).
-/

namespace ShardStore

namespace Traversal

variable {n : Nat} {V : Type} {cells cells' : Cells n V} {number : Nat} {run run' : Traversal n V}

/-- All that holds of a traversal, whatever has happened. -/
structure Coherent (run : Traversal n V) (cells : Cells n V) (number : Nat) : Prop where
  guarded : run.Guarded cells number
  collecting : run.Collecting
  inStep : run.InStep
  feeding : ∀ i, run.Feeding i
  flowing : run.Flowing

namespace Coherent

/-- A traversal that nobody has begun with. -/
theorem opening (cells : Cells n V) (number : Nat) (delivery : Delivery) :
    Coherent { delivery } cells number where
  guarded := ⟨fun i hi => (by cases hi), fun i hi => (by cases hi), fun i => rfl⟩
  collecting := by
    refine ⟨Nat.zero_le n, fun i => by simp, ?_, ?_⟩
    · simp [shardsWhere, Worker.isPending]
    · refine ⟨List.length_replicate, fun j report hj => ?_, ?_, rfl, rfl⟩
      · obtain ⟨_, hnone⟩ := List.getElem?_eq_some_iff.mp hj
        rw [List.getElem_replicate] at hnone
        cases hnone
      · simp [Report.arrange, shardsWhere, Worker.hasReported]
  inStep := by constructor <;> simp [Merger.senders]
  feeding i := rfl
  flowing := by
    refine ⟨List.suffix_rfl, fun i => ?_, ?_, ?_, fun _ i => rfl, fun _ => rfl, List.nil_prefix,
      fun hends => absurd hends (Nat.lt_irrefl 0)⟩
    · simp [ahead]
    · exact fun habsent => absurd rfl habsent
    · exact fun habsent => absurd rfl habsent

/-- When the asking thread has returned, all workers have reported. -/
theorem hasReported (h : run.Coherent cells number) {total : Nat}
    (hasker : run.asker = .returned total) (i : Fin n) : (run.workers i).hasReported = true :=
  (h.collecting.of_returned hasker).1 i

/-- Others leave a traversal coherent. -/
theorem frame (h : run.Coherent cells number)
    (hspares : cells.Spares cells' fun i => .worker number i) : run.Coherent cells' number where
  guarded := h.guarded.frame hspares
  collecting := h.collecting
  inStep := h.inStep
  feeding := h.feeding
  flowing := h.flowing

/-- A traversal's own moves leave it coherent. -/
theorem move (h : run.Coherent cells number) (hmove : Move cells number run cells' run') :
    run'.Coherent cells' number where
  guarded := h.guarded.move hmove h.collecting.absent_of_starting
  collecting := h.collecting.move h.guarded hmove
  inStep := h.inStep.move h.collecting hmove
  feeding := by
    refine Feeding.move h.feeding h.guarded h.collecting (fun hmerger => ?_) hmove
    obtain ⟨total, hasker⟩ := h.inStep.exists_returned hmerger
    exact h.hasReported hasker
  flowing := h.flowing.move h.inStep h.feeding h.guarded h.collecting hmove

end Coherent

/-- What cannot be undone in a traversal. -/
structure Before (run run' : Traversal n V) : Prop where
  delivery : run'.delivery = run.delivery
  captured : ∀ i table, run.captured i = some table → run'.captured i = some table
  returned : ∀ total, run.asker = .returned total → run'.asker = .returned total
  received : run.received <+: run'.received
  ends : run.ends ≤ run'.ends
  gone : run.consumer = .gone → run'.consumer = .gone

namespace Before

variable {run'' : Traversal n V}

theorem refl (run : Traversal n V) : run.Before run where
  delivery := rfl
  captured _ _ h := h
  returned _ h := h
  received := List.prefix_rfl
  ends := Nat.le_refl _
  gone h := h

theorem trans (h : run.Before run') (h' : run'.Before run'') : run.Before run'' where
  delivery := h'.delivery.trans h.delivery
  captured i table hcaptured := h'.captured i table (h.captured i table hcaptured)
  returned total hasker := h'.returned total (h.returned total hasker)
  received := h.received.trans h'.received
  ends := Nat.le_trans h.ends h'.ends
  gone hconsumer := h'.gone (h.gone hconsumer)

end Before

/-- A move undoes nothing. -/
theorem Coherent.before (h : run.Coherent cells number)
    (hmove : Move cells number run cells' run') : run.Before run' := by
  have hcaptured (i : Fin n) (table : Table V) : run.captured i = some table →
      run'.captured i = some table := h.guarded.captured_eq hmove
  cases hmove with
  | start hasker hlt => exact ⟨rfl, hcaptured, by simp [hasker], List.prefix_rfl, Nat.le_refl _, id⟩
  | listen hasker hlt =>
    exact ⟨rfl, hcaptured, by simp [hasker], List.prefix_rfl, Nat.le_refl _, id⟩
  | handOver hasker =>
    have habsent := h.inStep.consuming.mpr (h.inStep.merger_eq_absent (by simp [hasker]))
    exact ⟨rfl, hcaptured, by simp [hasker], List.prefix_rfl, Nat.le_refl _, by simp [habsent]⟩
  | note hasker hmore hqueue =>
    exact ⟨rfl, hcaptured, by simp [hasker], List.prefix_rfl, Nat.le_refl _, id⟩
  | giveUp hasker hmore hqueue hsenders =>
    exact ⟨rfl, hcaptured, by simp [hasker], List.prefix_rfl, Nat.le_refl _, id⟩
  | give hmerger hopen hcapacity hconsumer =>
    exact ⟨rfl, hcaptured, fun _ => id, List.prefix_append _ _, Nat.le_refl _, by simp [hconsumer]⟩
  | ask hconsumer =>
    exact ⟨rfl, hcaptured, fun _ => id, List.prefix_rfl, Nat.le_refl _, by simp [hconsumer]⟩
  | take hconsumer hqueue =>
    exact ⟨rfl, hcaptured, fun _ => id, List.prefix_append _ _, Nat.le_refl _, by simp [hconsumer]⟩
  | learn hconsumer hqueue hsenders =>
    exact ⟨rfl, hcaptured, fun _ => id, List.prefix_rfl, Nat.le_succ _, by simp [hconsumer]⟩
  | leave hconsumer =>
    exact ⟨rfl, hcaptured, fun _ => id, List.prefix_rfl, Nat.le_refl _, fun _ => rfl⟩
  | _ => exact ⟨rfl, hcaptured, fun _ => id, List.prefix_rfl, Nat.le_refl _, id⟩

end Traversal

/-- Whether it is a step in the traversal number `number`. -/
def Happening.isIn {n : Nat} {V : Type} (number : Nat) : Happening n V → Bool
  | .inside run _ => run == number
  | _ => false

namespace Scene

variable {n : Nat} {V : Type} {scene scene' : Scene n V} {happening : Happening n V} {number : Nat}

/-- Locks are held as they may be, and all traversals are coherent. -/
structure Coherent (scene : Scene n V) : Prop where
  consistent : scene.cells.Consistent
  runs : ∀ number (run : Traversal n V), scene.runs[number]? = some run →
    run.Coherent scene.cells number

/-- What can become of the shards and of a traversal: a step in it is one of its moves, and any
other happening leaves it and its locks alone. -/
theorem Coherent.step_cases (h : scene.Coherent) (hstep : scene.step? happening = some scene')
    (number : Nat) :
    (happening.isIn number = true ∧ ∃ run run', scene.runs[number]? = some run ∧
      scene'.runs[number]? = some run' ∧
      Traversal.Move scene.cells number run scene'.cells run') ∨
    (happening.isIn number = false ∧
      scene.cells.Spares scene'.cells (fun i => .worker number i) ∧
      (scene'.runs[number]? = scene.runs[number]? ∨
        scene.runs[number]? = none ∧ ∃ delivery, scene'.runs[number]? = some { delivery })) := by
  cases happening with
  | outside act =>
    obtain ⟨cells, hact, rfl⟩ := Option.map_eq_some_iff.mp hstep
    exact .inr ⟨rfl, (h.consistent.outside? hact).2 number, .inl rfl⟩
  | opening delivery =>
    cases hstep
    refine .inr ⟨rfl, fun i hi => ⟨hi, rfl⟩, ?_⟩
    -- The new traversal is put behind those that are there.
    rcases Nat.lt_trichotomy number scene.runs.length with hlt | heq | hgt
    · exact .inl (List.getElem?_append_left hlt)
    · refine .inr ⟨List.getElem?_eq_none (Nat.le_of_eq heq.symm), delivery, ?_⟩
      rw [heq]
      exact List.getElem?_concat_length
    · refine .inl ?_
      rw [List.getElem?_eq_none (Nat.le_of_lt hgt), List.getElem?_eq_none]
      rw [List.length_append, List.length_singleton]
      exact hgt
  | inside other actor =>
    simp only [step?] at hstep
    split at hstep
    · cases hstep
    · next run hrun =>
      obtain ⟨⟨cells, run'⟩, hactor, rfl⟩ := Option.map_eq_some_iff.mp hstep
      have hmove := Traversal.move_of_step? hactor
      by_cases hother : other = number
      · subst hother
        refine .inl ⟨beq_self_eq_true other, run, run', hrun, ?_, hmove⟩
        exact List.getElem?_set_self (List.getElem?_eq_some_iff.mp hrun).1
      · refine .inr ⟨beq_false_of_ne hother, (hmove.consistent h.consistent).2 number ?_, .inl ?_⟩
        · exact fun heq => hother heq.symm
        · exact List.getElem?_set_ne hother

/-- Whatever happens, the locks stay consistent. -/
theorem Coherent.consistent_of_step (h : scene.Coherent)
    (hstep : scene.step? happening = some scene') : scene'.cells.Consistent := by
  cases happening with
  | outside act =>
    obtain ⟨cells, hact, rfl⟩ := Option.map_eq_some_iff.mp hstep
    exact (h.consistent.outside? hact).1
  | opening delivery => cases hstep; exact h.consistent
  | inside other actor =>
    simp only [step?] at hstep
    split at hstep
    · cases hstep
    · next run hrun =>
      obtain ⟨⟨cells, run'⟩, hactor, rfl⟩ := Option.map_eq_some_iff.mp hstep
      exact ((Traversal.move_of_step? hactor).consistent h.consistent).1

/-- Whatever happens, scenes stay coherent. -/
theorem Coherent.step (h : scene.Coherent) (hstep : scene.step? happening = some scene') :
    scene'.Coherent where
  consistent := h.consistent_of_step hstep
  runs number run' hrun' := by
    rcases h.step_cases hstep number with
      ⟨-, run, after, hrun, hafter, hmove⟩ | ⟨-, hspares, hsame | ⟨-, delivery, hnew⟩⟩
    · rw [hafter] at hrun'
      cases hrun'
      exact (h.runs number run hrun).move hmove
    · rw [hsame] at hrun'
      exact (h.runs number run' hrun').frame hspares
    · rw [hnew] at hrun'
      cases hrun'
      exact Traversal.Coherent.opening _ _ _

/-- Every scene that can come about is coherent. -/
theorem Reachable.coherent (h : scene.Reachable) : scene.Coherent := by
  induction h with
  | start cells hrest =>
    refine ⟨fun i => ?_, fun number run hrun => ?_⟩
    · rw [hrest i]
      exact ⟨Lock.consistent_free, fun run j hwriter => by cases hwriter⟩
    · cases hrun
  | step happening hreachable hstep ih => exact ih.step hstep

/-! ## One happening after another -/

/-- The scene after happenings, if each can happen when it is its turn. -/
def play (scene : Scene n V) : List (Happening n V) → Option (Scene n V)
  | [] => some scene
  | happening :: happenings =>
    match scene.step? happening with
    | some scene' => scene'.play happenings
    | none => none

theorem play_cons_eq_some_iff {happenings : List (Happening n V)} :
    scene.play (happening :: happenings) = some scene' ↔
      ∃ next, scene.step? happening = some next ∧ next.play happenings = some scene' := by
  rw [play]
  cases hstep : scene.step? happening <;> simp

/-- What happens on the way to a scene and one happening more. -/
theorem play_concat {before : Scene n V} {happenings : List (Happening n V)}
    (hplay : before.play happenings = some scene) (hstep : scene.step? happening = some scene') :
    before.play (happenings ++ [happening]) = some scene' := by
  induction happenings generalizing before with
  | nil =>
    cases hplay
    exact play_cons_eq_some_iff.mpr ⟨scene', hstep, rfl⟩
  | cons first happenings ih =>
    obtain ⟨next, hfirst, hrest⟩ := play_cons_eq_some_iff.mp hplay
    exact play_cons_eq_some_iff.mpr ⟨next, hfirst, ih hrest⟩

theorem Reachable.play (h : scene.Reachable) {happenings : List (Happening n V)}
    (hplay : scene.play happenings = some scene') : scene'.Reachable := by
  induction happenings generalizing scene with
  | nil => cases hplay; exact h
  | cons first happenings ih =>
    obtain ⟨next, hfirst, hrest⟩ := play_cons_eq_some_iff.mp hplay
    exact ih (.step first h hfirst) hrest

theorem Coherent.play (h : scene.Coherent) {happenings : List (Happening n V)}
    (hplay : scene.play happenings = some scene') : scene'.Coherent := by
  induction happenings generalizing scene with
  | nil => cases hplay; exact h
  | cons first happenings ih =>
    obtain ⟨next, hfirst, hrest⟩ := play_cons_eq_some_iff.mp hplay
    exact ih (h.step hfirst) hrest

/-- A traversal stays where it is, and nothing is undone in it. -/
theorem Coherent.before_of_step (h : scene.Coherent)
    (hstep : scene.step? happening = some scene') {run : Traversal n V}
    (hrun : scene.runs[number]? = some run) :
    ∃ run', scene'.runs[number]? = some run' ∧ run.Before run' := by
  rcases h.step_cases hstep number with
    ⟨-, before, run', hbefore, hrun', hmove⟩ | ⟨-, hspares, hsame | ⟨hnone, -⟩⟩
  · rw [hrun] at hbefore
    cases hbefore
    exact ⟨run', hrun', (h.runs number run hrun).before hmove⟩
  · exact ⟨run, hsame.trans hrun, .refl run⟩
  · rw [hrun] at hnone
    cases hnone

theorem Coherent.before_of_play (h : scene.Coherent) {happenings : List (Happening n V)}
    (hplay : scene.play happenings = some scene') {run : Traversal n V}
    (hrun : scene.runs[number]? = some run) :
    ∃ run', scene'.runs[number]? = some run' ∧ run.Before run' := by
  induction happenings generalizing scene run with
  | nil =>
    cases hplay
    exact ⟨run, hrun, .refl run⟩
  | cons first happenings ih =>
    obtain ⟨next, hfirst, hrest⟩ := play_cons_eq_some_iff.mp hplay
    obtain ⟨run', hrun', hbefore⟩ := h.before_of_step hfirst hrun
    obtain ⟨run'', hrun'', hafter⟩ := ih (h.step hfirst) hrest hrun'
    exact ⟨run'', hrun'', hbefore.trans hafter⟩

end Scene

end ShardStore
