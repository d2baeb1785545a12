import ShardStore.Proofs.SnapshotProtocol
import ShardStore.Snapshot

/-!
# The size hint of a snapshot is exact from above

The total of a snapshot is the sum of the sizes that its workers reported before they sent anything,
and what it has handed out is counted where the entries arrive. The two meet: whatever else happens
in a scene, the consumer is answered as by `Snapshot.next` on the list of all captured entries
(`Scene.Reachable.nexts_of_play`), which is as long as the total says. So as many calls return an
entry as the hint says, every later one is told that there is no more, and the subtraction in the
hint never has to stop at zero.

A step in a traversal answers at most one call (`Traversal.Consumes`), and a call that waits is
answered after no more steps than there is work left in the traversal.
-/

namespace ShardStore

/-! ## One call after another -/

namespace Snapshot

variable {V : Type} {snapshot : Snapshot V}

/-- The answers to so many calls of `next`, and the snapshot after them. -/
def nexts (snapshot : Snapshot V) : Nat → List (Option (String × V)) × Snapshot V
  | 0 => ([], snapshot)
  | count + 1 =>
    let (answer, snapshot) := snapshot.next
    let (answers, snapshot) := snapshot.nexts count
    (answer :: answers, snapshot)

/-- The calls are answered with the entries that are left, in order, and then with nothing. -/
theorem nexts_answer (snapshot : Snapshot V) {count k : Nat} (h : k < count) :
    (snapshot.nexts count).1[k]? = some snapshot.entries[snapshot.yielded + k]? := by
  induction count generalizing snapshot k with
  | zero => omega
  | succ count ih =>
    rcases Nat.lt_or_ge snapshot.yielded snapshot.entries.size with hlt | hge
    · cases k with
      | zero =>
        simp only [nexts, next_of_lt hlt, List.getElem?_cons_zero, Nat.add_zero,
          Array.getElem?_eq_getElem hlt]
      | succ k =>
        simp only [nexts, next_of_lt hlt, List.getElem?_cons_succ, ih _ (Nat.lt_of_succ_lt_succ h)]
        rw [Nat.add_right_comm, Nat.add_assoc]
    · have hnone (j : Nat) : snapshot.entries[snapshot.yielded + j]? = none :=
        Array.getElem?_eq_none (by omega)
      cases k with
      | zero => simp only [nexts, next_of_le hge, List.getElem?_cons_zero, hnone]
      | succ k =>
        simp only [nexts, next_of_le hge, List.getElem?_cons_succ, hnone,
          ih _ (Nat.lt_of_succ_lt_succ h)]

/-- Every answer but the empty ones is counted. -/
theorem yielded_nexts (h : snapshot.yielded ≤ snapshot.entries.size) (count : Nat) :
    (snapshot.nexts count).2.yielded = min (snapshot.yielded + count) snapshot.entries.size := by
  induction count generalizing snapshot with
  | zero => exact (Nat.min_eq_left h).symm
  | succ count ih =>
    rcases Nat.lt_or_ge snapshot.yielded snapshot.entries.size with hlt | hge
    · have hlater : ({ snapshot with yielded := snapshot.yielded + 1 }.nexts count).2.yielded =
          min (snapshot.yielded + 1 + count) snapshot.entries.size := ih hlt
      simp only [nexts, next_of_lt hlt, hlater]
      omega
    · simp only [nexts, next_of_le hge, ih h]
      omega

end Snapshot

/-- The number of entries that a snapshot was returned with. -/
def Asker.total? {n : Nat} : Asker n → Option Nat
  | .returned total => some total
  | _ => none

theorem Asker.total?_eq_some_iff {n : Nat} {asker : Asker n} {total : Nat} :
    asker.total? = some total ↔ asker = .returned total := by
  cases asker <;> simp [total?]

namespace Traversal

variable {n : Nat} {V : Type} {cells cells' : Cells n V} {number : Nat} {run run' : Traversal n V}
  {actor : Actor n}

/-- What the consumer holds: the captured entries, and how many of them it got. -/
def handle (run : Traversal n V) : Snapshot V where
  entries := run.all.toArray
  yielded := run.received.length

/-- What a snapshot that was returned says about the number of entries left. -/
def sizeHint? (run : Traversal n V) : Option (Nat × Option Nat) :=
  run.asker.total?.map fun total => (0, some (total - run.received.length))

/-- Calls of `next` that wait for an answer. -/
def waiting (run : Traversal n V) : Nat :=
  if run.consumer = .waiting then 1 else 0

/-- What the consumer was told in between. -/
def told (run run' : Traversal n V) : List (Option (String × V)) :=
  (run'.received.drop run.received.length).map some ++ List.replicate (run'.ends - run.ends) none

/-- What a step, with or without a call of `next`, means to the consumer. -/
inductive Consumes (run run' : Traversal n V) : (asked : Bool) → Prop where
  /-- Nothing. -/
  | nothing (hreceived : run'.received = run.received) (hends : run'.ends = run.ends)
      (hwaiting : run'.waiting = run.waiting) : Consumes run run' false
  /-- It has called and waits. -/
  | asks (hreceived : run'.received = run.received) (hends : run'.ends = run.ends)
      (hbefore : run.waiting = 0) (hafter : run'.waiting = 1) : Consumes run run' true
  /-- It gets an entry. -/
  | gets {entry : String × V} (hreceived : run'.received = run.received ++ [entry])
      (hends : run'.ends = run.ends) (hbefore : run.waiting = 1) (hafter : run'.waiting = 0) :
      Consumes run run' false
  /-- It is told that there is no more. -/
  | learns (hreceived : run'.received = run.received) (hends : run'.ends = run.ends + 1)
      (hbefore : run.waiting = 1) (hafter : run'.waiting = 0) : Consumes run run' false

/-- The worker of a shard has nothing to do with the consumer. -/
theorem consumes_of_stepWorker {i : Fin n}
    (h : run.stepWorker cells number i = some (cells', run')) : Consumes run run' false := by
  unfold stepWorker at h
  dsimp only at h
  split at h
  · cases h
  · obtain ⟨locked, -, heq⟩ := Option.map_eq_some_iff.mp h
    cases heq
    exact .nothing rfl rfl rfl
  · split at h
    · cases h; exact .nothing rfl rfl rfl
    · cases h; exact .nothing rfl rfl rfl
    · cases h
  · split at h
    · split at h
      · cases h; exact .nothing rfl rfl rfl
      · cases h; exact .nothing rfl rfl rfl
      · cases h
    · cases h; exact .nothing rfl rfl rfl
  · cases h; exact .nothing rfl rfl rfl
  · cases h

theorem consumes_of_stepMerger (h : run.stepMerger = some run') : Consumes run run' false := by
  unfold stepMerger at h
  split at h
  · cases h
  · cases h; exact .nothing rfl rfl rfl
  · split at h
    · cases h; exact .nothing rfl rfl rfl
    · cases h; exact .nothing rfl rfl rfl
    · cases h
  · split at h
    · cases h; exact .nothing rfl rfl rfl
    · cases h; exact .nothing rfl rfl rfl
    · split at h
      · next hgive =>
        cases h
        exact .gets rfl rfl (if_pos hgive.2) rfl
      · cases h
  · cases h

theorem consumes_of_stepTake (h : run.stepTake = some run') : Consumes run run' false := by
  unfold stepTake at h
  split at h
  · next hwaiting =>
    split at h
    · cases h; exact .gets rfl rfl (if_pos hwaiting) rfl
    · cases h; exact .learns rfl rfl (if_pos hwaiting) rfl
    · cases h
  · cases h

/-- The asking thread gives the consumer its snapshot, and there was no call before. -/
theorem Coherent.consumes_of_stepAsker (hcoherent : run.Coherent cells number)
    (h : run.stepAsker = some run') : Consumes run run' false := by
  unfold stepAsker at h
  split at h
  · split at h
    · cases h; exact .nothing rfl rfl rfl
    · cases h; exact .nothing rfl rfl rfl
  · next hasker =>
    split at h
    · cases h
      have habsent := hcoherent.inStep.consuming.mpr
        (hcoherent.inStep.merger_eq_absent (by simp [hasker]))
      refine .nothing rfl rfl ?_
      rw [waiting, waiting, habsent]
      rfl
    · split at h
      · cases h; exact .nothing rfl rfl rfl
      · cases h; exact .nothing rfl rfl rfl
      · cases h
  · cases h
  · cases h

/-- Every step means one of these things to the consumer. -/
theorem Coherent.consumes (hcoherent : run.Coherent cells number)
    (h : run.step? cells number actor = some (cells', run')) :
    Consumes run run' (actor = .ask) := by
  have hlift {step : Option (Traversal n V)} {asked : Bool}
      (hconsumes : ∀ run', step = some run' → Consumes run run' asked)
      (hstep : step.map (cells, ·) = some (cells', run')) : Consumes run run' asked := by
    obtain ⟨after, hafter, heq⟩ := Option.map_eq_some_iff.mp hstep
    cases heq
    exact hconsumes _ hafter
  cases actor with
  | asker => exact hlift (fun _ => hcoherent.consumes_of_stepAsker) h
  | worker i => exact consumes_of_stepWorker h
  | merger => exact hlift (fun _ => consumes_of_stepMerger) h
  | ask =>
    refine hlift (fun after hafter => ?_) h
    rw [stepAsk] at hafter
    split at hafter
    · next hidle =>
      cases hafter
      exact .asks rfl rfl (by rw [waiting, hidle]; rfl) rfl
    · cases hafter
  | take => exact hlift (fun _ => consumes_of_stepTake) h
  | leave =>
    refine hlift (fun after hafter => ?_) h
    rw [stepLeave] at hafter
    split at hafter
    · next hidle =>
      cases hafter
      exact .nothing rfl rfl (by rw [waiting, waiting, hidle]; rfl)
    · cases hafter

/-- What it is told is what the snapshot that it holds answers. -/
theorem Consumes.nexts {asked : Bool} (h : Consumes run run' asked)
    (hcoherent : run'.Coherent cells number) (hall : run'.all = run.all)
    {answers : List (Option (String × V))} {last : Snapshot V}
    (hrest : run'.handle.nexts answers.length = (answers, last)) :
    run.handle.nexts (run.told run' ++ answers).length = (run.told run' ++ answers, last) := by
  have hprefix := hcoherent.flowing.beginning
  have hsame (hreceived : run'.received = run.received) : run'.handle = run.handle := by
    rw [handle, handle, hall, hreceived]
  cases h with
  | nothing hreceived hends =>
    have htold : run.told run' = [] := by simp [told, hreceived, hends]
    rw [htold, List.nil_append, ← hsame hreceived, hrest]
  | asks hreceived hends =>
    have htold : run.told run' = [] := by simp [told, hreceived, hends]
    rw [htold, List.nil_append, ← hsame hreceived, hrest]
  | @gets entry hreceived hends =>
    have htold : run.told run' = [some entry] := by simp [told, hreceived, hends]
    rw [hall, hreceived] at hprefix
    obtain ⟨rest, hrestall⟩ := hprefix
    have hentry : run.handle.entries[run.handle.yielded]? = some entry := by
      simp [handle, ← hrestall]
    have hnext : run.handle.next = (some entry, run'.handle) := by
      simp only [Snapshot.next, hentry]
      rw [handle, handle, hall, hreceived, List.length_append]
      rfl
    rw [htold, List.singleton_append, List.length_cons]
    simp only [Snapshot.nexts, hnext, hrest]
  | learns hreceived hends =>
    have htold : run.told run' = [none] := by simp [told, hreceived, hends]
    have hcomplete := hcoherent.flowing.complete (by omega)
    have hle : run.handle.entries.size ≤ run.handle.yielded := by
      simp [handle, ← hall, ← hreceived, hcomplete]
    rw [htold, List.singleton_append, List.length_cons]
    rw [hsame hreceived] at hrest
    simp only [Snapshot.nexts, Snapshot.next_of_le hle, hrest]

/-- Of the calls that waited or were made, each was answered or waits. -/
theorem Consumes.length_told {asked : Bool} (h : Consumes run run' asked) :
    (run.told run').length + run'.waiting = asked.toNat + run.waiting := by
  cases h with
  | nothing hreceived hends hwaiting => simp [told, hreceived, hends, hwaiting]
  | asks hreceived hends hbefore hafter => simp [told, hreceived, hends, hbefore, hafter]
  | gets hreceived hends hbefore hafter => simp [told, hreceived, hends, hbefore, hafter]
  | learns hreceived hends hbefore hafter => simp [told, hreceived, hends, hbefore, hafter]

/-- Calls of `next` so far: those that were answered and the one that waits. -/
def calls (run : Traversal n V) : Nat :=
  run.received.length + run.ends + run.waiting

theorem Consumes.calls {asked : Bool} (h : Consumes run run' asked) :
    run'.calls = run.calls + asked.toNat := by
  cases h with
  | nothing hreceived hends hwaiting => simp [Traversal.calls, hreceived, hends, hwaiting]
  | asks hreceived hends hbefore hafter =>
    simp [Traversal.calls, hreceived, hends, hbefore, hafter]
  | gets hreceived hends hbefore hafter =>
    simp [Traversal.calls, hreceived, hends, hbefore, hafter]
    omega
  | learns hreceived hends hbefore hafter =>
    simp [Traversal.calls, hreceived, hends, hbefore, hafter]
    omega

end Traversal

/-- Whether it is a call of `next` on the snapshot of the traversal number `number`. -/
def Happening.asks {n : Nat} {V : Type} (number : Nat) : Happening n V → Bool
  | .inside run actor => run == number && actor = .ask
  | _ => false

namespace Scene

variable {n : Nat} {V : Type} {scene scene' : Scene n V} {happening : Happening n V}
  {happenings : List (Happening n V)} {number total : Nat} {run run' : Traversal n V}

/-- What the consumer of a traversal is told while things happen. -/
def answers (number : Nat) : Scene n V → List (Happening n V) → List (Option (String × V))
  | _, [] => []
  | scene, happening :: happenings =>
    match scene.step? happening with
    | none => []
    | some next =>
      match scene.runs[number]?, next.runs[number]? with
      | some run, some run' => run.told run' ++ next.answers number happenings
      | _, _ => next.answers number happenings

/-- Whatever happens means one of these things to the consumer of a traversal. -/
theorem Coherent.consumes_of_step (h : scene.Coherent)
    (hstep : scene.step? happening = some scene') (hrun : scene.runs[number]? = some run) :
    ∃ run', scene'.runs[number]? = some run' ∧
      Traversal.Consumes run run' (happening.asks number) := by
  cases happening with
  | outside act =>
    obtain ⟨cells, -, rfl⟩ := Option.map_eq_some_iff.mp hstep
    exact ⟨run, hrun, .nothing rfl rfl rfl⟩
  | opening delivery =>
    cases hstep
    refine ⟨run, ?_, .nothing rfl rfl rfl⟩
    rw [List.getElem?_append_left (List.getElem?_eq_some_iff.mp hrun).1, hrun]
  | inside other actor =>
    simp only [step?] at hstep
    split at hstep
    · cases hstep
    · next before hbefore =>
      obtain ⟨⟨cells, after⟩, hactor, rfl⟩ := Option.map_eq_some_iff.mp hstep
      by_cases hother : other = number
      · subst hother
        rw [hrun] at hbefore
        cases hbefore
        refine ⟨after, List.getElem?_set_self (List.getElem?_eq_some_iff.mp hrun).1, ?_⟩
        rw [Happening.asks, beq_self_eq_true, Bool.true_and]
        exact (h.runs other run hrun).consumes hactor
      · refine ⟨run, (List.getElem?_set_ne hother).trans hrun, ?_⟩
        rw [Happening.asks, beq_false_of_ne hother, Bool.false_and]
        exact .nothing rfl rfl rfl

theorem answers_cons {first : Happening n V} (hfirst : scene.step? first = some scene')
    (hrun : scene.runs[number]? = some run) (hrun' : scene'.runs[number]? = some run') :
    scene.answers number (first :: happenings) =
      run.told run' ++ scene'.answers number happenings := by
  rw [answers]
  simp only [hfirst, hrun, hrun']

/-- Each call is answered or waits. -/
theorem Coherent.length_answers (h : scene.Coherent) (hplay : scene.play happenings = some scene')
    (hrun : scene.runs[number]? = some run) (hrun' : scene'.runs[number]? = some run') :
    (scene.answers number happenings).length + run'.waiting =
      happenings.countP (Happening.asks number) + run.waiting := by
  induction happenings generalizing scene run with
  | nil =>
    cases hplay
    rw [hrun] at hrun'
    cases hrun'
    rfl
  | cons first happenings ih =>
    obtain ⟨next, hfirst, hrest⟩ := play_cons_eq_some_iff.mp hplay
    obtain ⟨after, hafter, hconsumes⟩ := h.consumes_of_step hfirst hrun
    have hlength := hconsumes.length_told
    have hlater := ih (h.step hfirst) hrest hafter
    rw [answers_cons hfirst hrun hafter, List.length_append, List.countP_cons]
    cases hasks : first.asks number <;> simp only [hasks, Bool.toNat_true, Bool.toNat_false,
      if_true, Bool.false_eq_true, if_false] at hlength ⊢ <;> omega

/-- **The consumer is answered as by one snapshot** of all entries that were captured. -/
theorem Reachable.nexts_of_play (h : scene.Reachable) (hrun : scene.runs[number]? = some run)
    (hasker : run.asker = .returned total) (hplay : scene.play happenings = some scene')
    (hrun' : scene'.runs[number]? = some run') :
    run.handle.nexts (scene.answers number happenings).length =
      (scene.answers number happenings, run'.handle) := by
  induction happenings generalizing scene run with
  | nil =>
    cases hplay
    rw [hrun] at hrun'
    cases hrun'
    rfl
  | cons first happenings ih =>
    obtain ⟨next, hfirst, hrest⟩ := play_cons_eq_some_iff.mp hplay
    obtain ⟨after, hafter, hconsumes⟩ := h.coherent.consumes_of_step hfirst hrun
    obtain ⟨after₁, hafter₁, hbefore⟩ := h.coherent.before_of_step hfirst hrun
    rw [hafter] at hafter₁
    cases hafter₁
    have hnext : next.Reachable := .step first h hfirst
    have hall : after.all = run.all := (h.delivers hrun).settled total hasker [first] next after
      (play_cons_eq_some_iff.mpr ⟨next, hfirst, rfl⟩) hafter
    rw [answers_cons hfirst hrun hafter]
    exact hconsumes.nexts (hnext.coherent.runs number after hafter) hall
      (ih hnext hafter (hbefore.returned total hasker) hrest)

/-! ## How many calls there were -/

/-- Calls of `next` on a snapshot so far. -/
def calls (scene : Scene n V) (number : Nat) : Nat :=
  (scene.runs[number]?.map Traversal.calls).getD 0

theorem Coherent.calls_of_step (h : scene.Coherent) (hstep : scene.step? happening = some scene')
    (number : Nat) : scene'.calls number = scene.calls number + (happening.asks number).toNat := by
  cases hrun : scene.runs[number]? with
  | some run =>
    obtain ⟨run', hrun', hconsumes⟩ := h.consumes_of_step hstep hrun
    rw [calls, calls, hrun, hrun']
    exact hconsumes.calls
  | none =>
    rcases h.step_cases hstep number with
      ⟨-, run, -, hsome, -⟩ | ⟨hout, -, hsame⟩
    · rw [hrun] at hsome
      cases hsome
    · have hasks : happening.asks number = false := by
        cases happening with
        | inside other actor => exact (Bool.and_eq_false_iff).mpr (.inl hout)
        | _ => rfl
      have hnone : scene'.calls number = 0 := by
        rcases hsame with hsame | ⟨-, delivery, hnew⟩
        · rw [calls, hsame, hrun]
          rfl
        · rw [calls, hnew]
          rfl
      rw [hnone, calls, hrun, hasks]
      rfl

theorem Coherent.calls_of_play (h : scene.Coherent) (hplay : scene.play happenings = some scene')
    (number : Nat) :
    scene'.calls number = scene.calls number + happenings.countP (Happening.asks number) := by
  induction happenings generalizing scene with
  | nil => cases hplay; rfl
  | cons first happenings ih =>
    obtain ⟨next, hfirst, hrest⟩ := play_cons_eq_some_iff.mp hplay
    rw [ih (h.step hfirst) hrest, h.calls_of_step hfirst number, List.countP_cons]
    cases first.asks number <;> simp only [Bool.toNat_true, Bool.toNat_false, if_true,
      Bool.false_eq_true, if_false] <;> omega

/-! ## Answers come in time -/

/-- As long as no call is answered, every step in the traversal leaves less to do in it. -/
theorem Coherent.countP_add_work_le_of_silent (h : scene.Coherent)
    (hplay : scene.play happenings = some scene') (hrun : scene.runs[number]? = some run)
    (hrun' : scene'.runs[number]? = some run') (hasker : run.asker = .returned total)
    (hsilent : scene.answers number happenings = []) :
    happenings.countP (Happening.isIn number) + run'.work ≤ run.work := by
  induction happenings generalizing scene run with
  | nil =>
    cases hplay
    rw [hrun] at hrun'
    cases hrun'
    rw [List.countP_nil, Nat.zero_add]
  | cons first happenings ih =>
    obtain ⟨next, hfirst, hrest⟩ := play_cons_eq_some_iff.mp hplay
    obtain ⟨after, hafter, hbefore⟩ := h.before_of_step hfirst hrun
    rw [answers_cons hfirst hrun hafter, List.append_eq_nil_iff] at hsilent
    obtain ⟨htold, hlater⟩ := hsilent
    have hle := ih (h.step hfirst) hrest hafter (hbefore.returned total hasker) hlater
    rcases h.step_cases hfirst number with
      ⟨hin, run₁, run₂, hrun₁, hrun₂, hmove⟩ | ⟨hout, -, hsame | ⟨hnone, -⟩⟩
    · rw [hrun] at hrun₁
      rw [hafter] at hrun₂
      cases hrun₁
      cases hrun₂
      have hcoherent := h.runs number run hrun
      have hunlocked := hcoherent.unlocked_eq_zero hasker
      have hends : after.ends = run.ends := by
        obtain ⟨-, hreplicate⟩ := List.append_eq_nil_iff.mp htold
        rw [List.replicate_eq_nil_iff] at hreplicate
        have hmore := hbefore.ends
        omega
      have hless := hcoherent.work_lt hmove (.inr (.inr hends))
      rw [List.countP_cons_of_pos hin]
      omega
    · rw [hafter, hrun] at hsame
      cases hsame
      rw [List.countP_cons_of_neg (by rw [hout]; simp)]
      exact hle
    · rw [hrun] at hnone
      cases hnone

/-! ## The statement -/

/-- What holds of the snapshot number `number` of a scene, with `total` entries, after so many calls
of `next`. -/
structure HintsExactly (scene : Scene n V) (number : Nat) (run : Traversal n V)
    (total calls : Nat) : Prop where
  /-- Every call was answered, with an entry or with nothing, unless it still waits. -/
  answered : run.received.length + run.ends + run.waiting = calls
  /-- As many calls returned an entry as were answered, up to the total. -/
  yielded : run.received.length = min (calls - run.waiting) total
  /-- The hint is what is left of the total, and the subtraction takes no more than there is. -/
  hint : run.sizeHint? = some (0, some (total - run.received.length)) ∧
    run.received.length ≤ total
  /-- That is the hint of a snapshot of all captured entries. -/
  snapshot : run.sizeHint? = some run.handle.sizeHint ∧ run.handle.total = total
  /-- Whatever happens, further calls are answered as by this snapshot: as many with an entry as the
  hint says, and the others with nothing; and the hint is less by one for each of them, down to
  zero. -/
  further : ∀ happenings scene' run', scene.play happenings = some scene' →
    scene'.runs[number]? = some run' →
    let answers := scene.answers number happenings
    answers.length + run'.waiting = happenings.countP (Happening.asks number) + run.waiting ∧
    run.handle.nexts answers.length = (answers, run'.handle) ∧
    (∀ k answer, answers[k]? = some answer →
      (answer.isSome = true ↔ k < total - run.received.length)) ∧
    run'.sizeHint? = some (0, some (total - run.received.length - answers.length))
  /-- Until the consumer drops the snapshot, somebody else can make a step, if only the consumer by
  a further call. -/
  goesOn : run.consumer ≠ .gone → run.GoesOn scene.cells number
  /-- After so many steps in the traversal a further call is answered. -/
  inTime : ∀ happenings scene', scene.play happenings = some scene' →
    run.work < happenings.countP (Happening.isIn number) → scene.answers number happenings ≠ []

/-- The hint says how many of the captured entries are left. -/
theorem Reachable.sizeHint?_eq (h : scene.Reachable) (hrun : scene.runs[number]? = some run)
    (hasker : run.asker = .returned total) :
    run.sizeHint? = some (0, some (total - run.received.length)) ∧ run.received.length ≤ total ∧
      run.handle.total = total := by
  have hdelivers := h.delivers hrun
  obtain ⟨-, htotal⟩ := hdelivers.returned total hasker
  refine ⟨by rw [Traversal.sizeHint?, hasker]; rfl, ?_, ?_⟩
  · rw [htotal]
    exact hdelivers.beginning.length_le
  · rw [htotal]
    exact List.size_toArray ..

/-- Before the first answer without an entry all answers were entries; after it none is left. -/
theorem Reachable.length_received (h : scene.Reachable) (hrun : scene.runs[number]? = some run)
    (hasker : run.asker = .returned total) :
    run.received.length = min (run.calls - run.waiting) total := by
  have hdelivers := h.delivers hrun
  have hle := (h.sizeHint?_eq hrun hasker).2.1
  have hcalls : run.calls = run.received.length + run.ends + run.waiting := rfl
  rcases Nat.eq_zero_or_pos run.ends with hzero | hpos
  · omega
  · have hcomplete := hdelivers.complete hpos
    obtain ⟨-, hlength⟩ := hdelivers.returned total hasker
    rw [← hcomplete] at hlength
    omega

section further

variable (h : scene.Reachable) (hrun : scene.runs[number]? = some run)
  (hasker : run.asker = .returned total) (hplay : scene.play happenings = some scene')
  (hrun' : scene'.runs[number]? = some run')

include h hrun hasker hplay hrun'

/-- As many further calls are answered with an entry as the hint says. -/
theorem Reachable.isSome_answers_iff {k : Nat} {answer : Option (String × V)}
    (hanswer : (scene.answers number happenings)[k]? = some answer) :
    answer.isSome = true ↔ k < total - run.received.length := by
  have hsize : run.handle.entries.size = total := (h.sizeHint?_eq hrun hasker).2.2
  have hcount : run.handle.yielded = run.received.length := rfl
  have hentry := run.handle.nexts_answer (List.getElem?_eq_some_iff.mp hanswer).1
  rw [h.nexts_of_play hrun hasker hplay hrun', hanswer, Option.some.injEq] at hentry
  rw [hentry, Option.isSome_iff_ne_none, Ne, Array.getElem?_eq_none_iff, hsize, hcount]
  omega

/-- With every answer the hint is less by one, down to zero. -/
theorem Reachable.sizeHint?_of_play : run'.sizeHint? =
    some (0, some (total - run.received.length - (scene.answers number happenings).length)) := by
  obtain ⟨-, hle, hsize⟩ := h.sizeHint?_eq hrun hasker
  have hfits : run.handle.yielded ≤ run.handle.entries.size := hle.trans_eq hsize.symm
  have hyielded := Snapshot.yielded_nexts hfits (scene.answers number happenings).length
  rw [h.nexts_of_play hrun hasker hplay hrun'] at hyielded
  have hreceived : run'.received.length =
      min (run.received.length + (scene.answers number happenings).length) total :=
    hyielded.trans (congrArg (min _) hsize)
  obtain ⟨last, hlast, hbefore⟩ := h.coherent.before_of_play hplay hrun
  rw [hrun'] at hlast
  cases hlast
  rw [((h.play hplay).sizeHint?_eq hrun' (hbefore.returned total hasker)).1, hreceived]
  exact congrArg (fun left => some (0, some left)) (by omega)

end further

/-- **Size hints are exact from above.** Start with shards at rest and let anything happen: writes,
other snapshots, and calls of `next` on this one, over a channel with room for all entries or from
hand to hand. When the snapshot has been returned, its hint is the number of entries that further
calls will return, neither more nor less, and a call that waits is answered. -/
theorem hints_are_exact {cells : Cells n V} (hrest : cells.AtRest)
    (hplay : play { cells } happenings = some scene) (hrun : scene.runs[number]? = some run)
    (hasker : run.asker = .returned total) :
    scene.HintsExactly number run total (happenings.countP (Happening.asks number)) := by
  have hstart : Reachable { cells } := .start cells hrest
  have h : scene.Reachable := hstart.play hplay
  obtain ⟨hhint, hle, htotal⟩ := h.sizeHint?_eq hrun hasker
  have hcalls : run.calls = happenings.countP (Happening.asks number) := by
    have hcounted := hstart.coherent.calls_of_play hplay number
    rw [calls, hrun, calls, List.getElem?_nil, Option.map_none, Option.getD_none,
      Nat.zero_add] at hcounted
    exact hcounted
  exact
    { answered := hcalls
      yielded := hcalls ▸ h.length_received hrun hasker
      hint := ⟨hhint, hle⟩
      snapshot := by
        rw [hhint, Snapshot.sizeHint, htotal]
        exact ⟨rfl, rfl⟩
      further := fun later scene' run' hlater hrun' =>
        ⟨h.coherent.length_answers hlater hrun hrun', h.nexts_of_play hrun hasker hlater hrun',
          fun _ _ hanswer => h.isSome_answers_iff hrun hasker hlater hrun' hanswer,
          h.sizeHint?_of_play hrun hasker hlater hrun'⟩
      goesOn := fun hgone =>
        ((h.delivers hrun).goesOn hgone).resolve_right fun hnot => hnot.1 total hasker
      inTime := fun later scene' hlater hmany hsilent => by
        obtain ⟨run', hrun', -⟩ := h.coherent.before_of_play hlater hrun
        have hwork :=
          h.coherent.countP_add_work_le_of_silent hlater hrun hrun' hasker hsilent
        omega }

/-- Two shards with an entry each, from hand to hand. When the snapshot has been returned, another
thread replaces the second shard's table and a second snapshot is asked for. The first call of
`next` returned an entry; so will one more, and the third one will not. -/
theorem hints_are_exact_between_entries :
    let cells : Cells 2 Nat := fun i =>
      if i = 0 then { table := (∅ : Table Nat).insert "a" 1 }
      else { table := (∅ : Table Nat).insert "b" 2 }
    let capture : List (Actor 2) := [.asker, .asker, .asker, .worker 1, .worker 1, .asker,
      .worker 1, .worker 1, .worker 1, .worker 0, .worker 0, .asker, .asker]
    let write : List (Outside 2 Nat) := [.lock ⟨0, 0⟩ 1 .exclusive,
      .write ⟨0, 0⟩ 1 ((∅ : Table Nat).insert "c" 3), .unlock ⟨0, 0⟩ 1 .exclusive]
    let read : List (Actor 2) := [.worker 0, .worker 0, .worker 0, .merger, .ask, .merger]
    let happenings : List (Happening 2 Nat) := .opening .handed :: capture.map (.inside 0) ++
      write.map .outside ++ .opening .buffered :: read.map (.inside 0)
    let later : List (Actor 2) := [.merger, .merger, .ask, .merger, .merger, .merger, .ask, .take]
    ∃ (scene : Scene 2 Nat) (run : Traversal 2 Nat), cells.AtRest ∧
      play { cells } happenings = some scene ∧ scene.runs[0]? = some run ∧ run.asker = .returned 2 ∧
      happenings.countP (Happening.asks 0) = 1 ∧ run.sizeHint? = some (0, some 1) ∧
      scene.answers 0 (later.map (.inside 0)) = [some ("b", 2), none] ∧
      scene.HintsExactly 0 run 2 (happenings.countP (Happening.asks 0)) := by
  intro cells capture write read happenings later
  have hend : ((play { cells } happenings).bind fun scene =>
      scene.runs[0]?.map fun run => (run.asker.total?, run.sizeHint?)) =
      some (some 2, some (0, some 1)) := by
    decide +kernel
  have htold : (play { cells } happenings).map (fun scene =>
      scene.answers 0 (later.map (.inside 0))) = some [some ("b", 2), none] := by
    decide +kernel
  obtain ⟨scene, hplay, hmap⟩ := Option.bind_eq_some_iff.mp hend
  obtain ⟨run, hrun, hfacts⟩ := Option.map_eq_some_iff.mp hmap
  obtain ⟨htotal, hhint⟩ := Prod.mk.inj hfacts
  have hasker := Asker.total?_eq_some_iff.mp htotal
  have hanswers : scene.answers 0 (later.map (.inside 0)) = [some ("b", 2), none] := by
    rw [hplay] at htold
    exact Option.some.inj htold
  have hrest : cells.AtRest := by
    intro i
    simp only [cells]
    split <;> rfl
  exact ⟨scene, run, hrest, hplay, hrun, hasker, rfl, hhint, hanswers,
    hints_are_exact hrest hplay hrun hasker⟩

end Scene

end ShardStore
