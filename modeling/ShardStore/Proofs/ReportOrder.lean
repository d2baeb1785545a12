import ShardStore.Proofs.Traversals.Coherent

/-!
# Reports in the order of the shards

The workers of a snapshot report in any order. A report goes into the slot with its number, and
whatever is in the slots at the end is taken in the order of the slots; an empty slot would be
passed over without a word, and everything behind it would move up.

Reports with the numbers of the shards, in whichever order, find their slots in range and empty, and
what is taken in the end are all of them, in the order of the shards (`Report.arranged_of_perm`).
`Scene.arrivals` is what the asking thread takes in while things happen, in the order in which it
does. The slots are what these make of empty ones (`Traversal.Logged`), wherever other threads
stand, so the same is true of every traversal (`Traversal.InShardOrder`).
-/

namespace ShardStore

variable {n : Nat} {V : Type}

/-! ## Filling slots -/

namespace Report

variable {report : Fin n → Report n} {arrived before : List (Report n)}

/-- The slots after reports have come in, one after another. -/
def slotsAfter (arrived : List (Report n)) : List (Option (Report n)) :=
  arrived.foldl place (List.replicate n none)

theorem slotsAfter_concat (arrived : List (Report n)) (last : Report n) :
    slotsAfter (arrived ++ [last]) = place (slotsAfter arrived) last :=
  List.foldl_concat _ _ _ _

@[simp] theorem length_slotsAfter (arrived : List (Report n)) :
    (slotsAfter arrived).length = n := by
  induction arrived using List.reverseRecOn with
  | nil => exact List.length_replicate
  | append_singleton arrived last ih => rw [slotsAfter_concat, place, List.length_set, ih]

/-- Reports with different numbers are different. -/
theorem injective_of_index (hindex : ∀ i, (report i).index = i.val) : Function.Injective report :=
  fun i j heq => Fin.ext ((hindex i).symm.trans ((congrArg index heq).trans (hindex j)))

/-- A slot holds the report of its shard once that has come in. -/
theorem getElem?_slotsAfter (hindex : ∀ i, (report i).index = i.val)
    (hfrom : ∀ other ∈ arrived, ∃ j, report j = other) (i : Fin n) :
    (slotsAfter arrived)[i.val]? =
      some (if report i ∈ arrived then some (report i) else none) := by
  induction arrived using List.reverseRecOn with
  | nil =>
    rw [slotsAfter, List.foldl_nil, List.getElem?_replicate, if_pos i.isLt, if_neg List.not_mem_nil]
  | append_singleton arrived last ih =>
    obtain ⟨j, rfl⟩ := hfrom last (List.mem_append_right _ List.mem_cons_self)
    have hrest := ih fun other hother => hfrom other (List.mem_append_left _ hother)
    rw [slotsAfter_concat, place, hindex]
    by_cases hj : j = i
    · subst hj
      rw [List.getElem?_set_self (by rw [length_slotsAfter]; exact j.isLt),
        if_pos (List.mem_append_right _ List.mem_cons_self)]
    · have hne : report i ≠ report j := fun heq => hj (injective_of_index hindex heq).symm
      have hmem : report i ∈ arrived ++ [report j] ↔ report i ∈ arrived := by
        rw [List.mem_append, List.mem_singleton, or_iff_left hne]
      rw [List.getElem?_set_ne fun heq => hj (Fin.ext heq), hrest]
      simp only [hmem]

/-- What becomes of reports that come in one after another. -/
structure Arranged (report : Fin n → Report n) (arrived : List (Report n)) : Prop where
  /-- The slot of each report is there when it comes in, and nothing is in it. -/
  fits : ∀ before next after, arrived = before ++ next :: after →
    next.index < n ∧ (slotsAfter before)[next.index]? = some none
  /-- At any time there is a slot for each shard, with the report of the shard if that has come in.
  -/
  slots : ∀ before, before <+: arrived → (slotsAfter before).length = n ∧
    ∀ i : Fin n, (slotsAfter before)[i.val]? =
      some (if report i ∈ before then some (report i) else none)
  /-- In the end there are as many reports as shards. -/
  length : (collect arrived).length = n
  /-- They are in the order of the shards. -/
  getElem? : ∀ i : Fin n, (collect arrived)[i.val]? = some (report i)

/-- **Reports are put in the order of the shards**, in whichever order they come in. -/
theorem arranged_of_perm (hindex : ∀ i, (report i).index = i.val)
    (hperm : arrived.Perm ((List.finRange n).map report)) : Arranged report arrived := by
  have hfrom (other : Report n) (hother : other ∈ arrived) : ∃ j, report j = other := by
    obtain ⟨j, -, heq⟩ := List.mem_map.mp (hperm.mem_iff.mp hother)
    exact ⟨j, heq⟩
  have hmem (i : Fin n) : report i ∈ arrived :=
    hperm.mem_iff.mpr (List.mem_map_of_mem (List.mem_finRange i))
  have hnodup : arrived.Nodup :=
    hperm.nodup_iff.mpr ((List.nodup_finRange n).map (injective_of_index hindex))
  have hcollect : collect arrived = (List.finRange n).map report := by
    refine arrange_eq_map (length_slotsAfter arrived) report fun i => ?_
    have hslot := getElem?_slotsAfter hindex hfrom i
    rwa [if_pos (hmem i)] at hslot
  refine ⟨fun before next after hsplit => ?_, fun before hbefore => ?_, ?_, fun i => ?_⟩
  · obtain ⟨i, rfl⟩ := hfrom next (by rw [hsplit]; exact List.mem_append_right _ List.mem_cons_self)
    -- The same report has not come in before.
    have hnot : report i ∉ before := fun hbefore =>
      (List.nodup_append.mp (hsplit ▸ hnodup)).2.2 _ hbefore _ List.mem_cons_self rfl
    have hfrom' : ∀ other ∈ before, ∃ j, report j = other := fun other hother =>
      hfrom other (by rw [hsplit]; exact List.mem_append_left _ hother)
    rw [hindex, getElem?_slotsAfter hindex hfrom', if_neg hnot]
    exact ⟨i.isLt, rfl⟩
  · exact ⟨length_slotsAfter before, getElem?_slotsAfter hindex fun other hother =>
      hfrom other (hbefore.subset hother)⟩
  · rw [hcollect, List.length_map, List.length_finRange]
  · rw [hcollect, List.getElem?_map, List.getElem?_eq_getElem (by simp), List.getElem_finRange]
    rfl

end Report

/-! ## What the asking thread takes in -/

namespace Traversal

variable {cells cells' : Cells n V} {number : Nat} {run run' : Traversal n V}
  {arrived : List (Report n)}

/-- The report that the asking thread takes in if it makes a step. -/
def incoming? (run : Traversal n V) : Option (Report n) :=
  match run.asker with
  | .receiving reported _ => if reported = n then none else run.reports.queue.head?
  | _ => none

theorem incoming?_of_receiving {reported : Nat} {slots : List (Option (Report n))}
    (hasker : run.asker = .receiving reported slots) :
    run.incoming? = if reported = n then none else run.reports.queue.head? := by
  rw [incoming?, hasker]

/-- The asking thread makes so many steps, each at once. -/
def asks : Nat → Traversal n V → Option (Traversal n V)
  | 0, run => some run
  | steps + 1, run => run.stepAsker.bind (asks steps)

/-- Only the asking thread moves itself. -/
theorem asker_eq {actor : Actor n} (hactor : actor ≠ .asker)
    (h : run.step? cells number actor = some (cells', run')) : run'.asker = run.asker := by
  have hlift {step : Option (Traversal n V)} (hstep : step.map (cells, ·) = some (cells', run')) :
      step = some run' := by
    obtain ⟨after, hafter, heq⟩ := Option.map_eq_some_iff.mp hstep
    cases heq
    exact hafter
  cases actor with
  | asker => exact absurd rfl hactor
  | worker i =>
    simp only [step?, stepWorker] at h
    repeat' split at h
    case h_2 =>
      obtain ⟨_, -, heq⟩ := Option.map_eq_some_iff.mp h
      cases heq
      rfl
    all_goals cases h <;> rfl
  | merger =>
    have hstep := hlift h
    unfold stepMerger at hstep
    repeat' split at hstep
    all_goals cases hstep <;> rfl
  | ask =>
    have hstep := hlift h
    rw [stepAsk] at hstep
    split at hstep
    all_goals cases hstep <;> rfl
  | take =>
    have hstep := hlift h
    unfold stepTake at hstep
    repeat' split at hstep
    all_goals cases hstep <;> rfl
  | leave =>
    have hstep := hlift h
    rw [stepLeave] at hstep
    split at hstep
    all_goals cases hstep <;> rfl

/-- What is known of the asking thread from what it has taken in. -/
structure Logged (run : Traversal n V) (arrived : List (Report n)) : Prop where
  perm : (Report.arrange (Report.slotsAfter arrived)).Perm arrived
  starting : ∀ next, run.asker = .starting next → arrived = []
  receiving : ∀ reported slots, run.asker = .receiving reported slots →
    slots = Report.slotsAfter arrived
  returned : ∀ total, run.asker = .returned total →
    Report.collect arrived = (List.finRange n).map run.reportOf

namespace Logged

theorem arrange_slotsAfter_nil :
    Report.arrange (Report.slotsAfter ([] : List (Report n))) = [] := by
  simp [Report.arrange, Report.slotsAfter]

/-- A traversal that nobody has begun with. -/
theorem opening (delivery : Delivery) : Logged ({ delivery } : Traversal n V) [] where
  perm := by rw [arrange_slotsAfter_nil]
  starting _ _ := rfl
  receiving _ _ hasker := by cases hasker
  returned _ hasker := by cases hasker

/-- While the asking thread does nothing, nothing comes in. -/
theorem move (h : run.Logged arrived) (hcoherent : run.Coherent cells number)
    (hmove : Move cells number run cells' run') (hasker : run'.asker = run.asker) :
    run'.Logged arrived where
  perm := h.perm
  starting next hstarting := h.starting next (hasker ▸ hstarting)
  receiving reported slots hreceiving := h.receiving reported slots (hasker ▸ hreceiving)
  returned total hreturned := by
    rw [hasker] at hreturned
    rw [h.returned total hreturned]
    refine List.map_congr_left fun i _ => ?_
    -- What has been reported stays captured.
    obtain ⟨table, htable⟩ := Option.isSome_iff_exists.mp ((hcoherent.guarded.captured i).trans
      (Worker.hasLocked_of_hasReported (hcoherent.hasReported hreturned i)))
    rw [reportOf, reportOf, entries, entries, htable,
      (hcoherent.before hmove).captured i table htable]

/-- A step of the asking thread takes in what is at the head of the channel, or nothing. -/
theorem stepAsker (h : run.Logged arrived) (hcollecting : run.Collecting)
    (hstep : run.stepAsker = some run') : run'.Logged (arrived ++ run.incoming?.toList) := by
  unfold Traversal.stepAsker at hstep
  split at hstep
  · next next hasker =>
    rw [incoming?, hasker, Option.toList_none, List.append_nil]
    obtain rfl := h.starting next hasker
    split at hstep
    · cases hstep
      exact ⟨h.perm, fun _ _ => rfl, by simp, by simp⟩
    · cases hstep
      refine ⟨h.perm, by simp, fun reported slots heq => ?_, by simp⟩
      cases heq
      rfl
  · next reported slots hasker =>
    rw [incoming?_of_receiving hasker]
    obtain rfl := h.receiving reported slots hasker
    split at hstep
    · next hall =>
      cases hstep
      rw [if_pos hall, Option.toList_none, List.append_nil]
      exact ⟨h.perm, by simp [Traversal.handOver], by simp [Traversal.handOver],
        fun _ _ => (hcollecting.arrange_eq (hall ▸ hasker)).2⟩
    · next hmore =>
      rw [if_neg hmore]
      split at hstep
      · next report reports hreceive =>
        obtain ⟨queue, hqueue, rfl⟩ := Channel.receive_eq_item_iff.mp hreceive
        cases hstep
        rw [hqueue, List.head?_cons, Option.toList_some]
        obtain ⟨-, -, -, haccounts⟩ := hcollecting.of_receiving hasker
        refine ⟨?_, by simp, fun _ _ heq => ?_, by simp⟩
        · rw [Report.slotsAfter_concat]
          exact ((Report.arrange_place_perm (haccounts.slot_eq_none hqueue)).trans
            (h.perm.cons report)).trans (List.perm_append_singleton _ _).symm
        · cases heq
          exact (Report.slotsAfter_concat _ _).symm
      · next hreceive =>
        obtain ⟨hqueue, hsenders⟩ := Channel.receive_eq_ended_iff.mp hreceive
        exact absurd hsenders (hcollecting.not_giveUp hasker hmore hqueue)
      · cases hstep
  · cases hstep
  · cases hstep

end Logged

/-- When all workers have reported, the asking thread returns without waiting for anybody, and what
it returns are the reports of all shards, in order. -/
theorem Collecting.exists_asks (h : run.Collecting) {reported left : Nat}
    {slots : List (Option (Report n))} (hasker : run.asker = .receiving reported slots)
    (hleft : reported + left = n) (hall : ∀ i, (run.workers i).hasReported = true) :
    ∃ run', run.asks (left + 1) = some run' ∧ run'.asker = .returned run.all.length ∧
      run'.merger = .draining ((List.finRange n).map run.reportOf) := by
  induction left generalizing run reported slots with
  | zero =>
    obtain rfl : reported = n := hleft
    obtain ⟨-, harrange⟩ := h.arrange_eq hasker
    refine ⟨run.handOver slots, ?_, ?_, ?_⟩
    · rw [asks, Traversal.stepAsker, hasker]
      simp only [if_true, Option.bind_some, asks]
    · rw [Traversal.handOver, harrange, sumOf_size]
    · rw [Traversal.handOver, harrange]
  | succ left ih =>
    obtain ⟨-, -, hlength, haccounts⟩ := h.of_receiving hasker
    have hmore : reported ≠ n := by omega
    cases hqueue : run.reports.queue with
    | nil =>
      obtain ⟨i, hi⟩ := haccounts.exists_not_hasReported (by rwa [hlength]) hqueue
      rw [hall i] at hi
      cases hi
    | cons report queue =>
      obtain ⟨run', hasks, hreturned, hmerger⟩ :=
        ih (h.note hasker hqueue) rfl (by omega) hall
      refine ⟨run', ?_, hreturned, hmerger⟩
      have hreceive := Channel.receive_eq_item_iff.mpr ⟨queue, hqueue, rfl⟩
      rw [asks, Traversal.stepAsker, hasker]
      simp only [if_neg hmore, hreceive, Option.bind_some]
      exact hasks

/-- Reports come in in any order, and what is made of them does not show it. -/
structure InShardOrder (run : Traversal n V) (arrived : List (Report n)) : Prop where
  /-- Until the asking thread returns, the reports that have come in or are in the channel are those
  of the workers that have reported, each once. -/
  once : (∀ total, run.asker ≠ .returned total) → (arrived ++ run.reports.queue).Perm
    ((shardsWhere run.workers Worker.hasReported).map run.reportOf)
  /-- There is a slot for each shard, with its report if that has come in. -/
  slots : ∀ reported slots, run.asker = .receiving reported slots →
    reported = arrived.length ∧ slots.length = n ∧ ∀ i : Fin n, slots[i.val]? =
      some (if run.reportOf i ∈ arrived then some (run.reportOf i) else none)
  /-- The slot of the report that comes next is there, and nothing is in it. -/
  fits : ∀ reported slots report, run.asker = .receiving reported slots →
    run.reports.queue.head? = some report → report.index < n ∧ slots[report.index]? = some none
  /-- When there are as many reports as shards, every worker has reported, and the slots have the
  reports in the order of the shards. -/
  flattened : ∀ slots, run.asker = .receiving n slots →
    (∀ i, (run.workers i).hasReported = true) ∧
      Report.arrange slots = (List.finRange n).map run.reportOf
  /-- When every worker has reported, the asking thread takes in what is left without waiting,
  returns and hands over the reports in the order of the shards. -/
  returns : ∀ reported slots, run.asker = .receiving reported slots →
    (∀ i, (run.workers i).hasReported = true) →
    ∃ run', run.asks (n - reported + 1) = some run' ∧ run'.asker = .returned run.all.length ∧
      run'.merger = .draining ((List.finRange n).map run.reportOf)
  /-- When it has returned, the report of each shard has come in once. -/
  returned : ∀ total, run.asker = .returned total →
    arrived.Perm ((List.finRange n).map run.reportOf) ∧
      Report.collect arrived = (List.finRange n).map run.reportOf
  /-- It does not give up. -/
  uninterrupted : ∀ reported, run.asker ≠ .interrupted reported

theorem Logged.inShardOrder (h : run.Logged arrived) (hcollecting : run.Collecting) :
    run.InShardOrder arrived where
  once hnot := by
    cases hasker : run.asker with
    | starting next =>
      obtain ⟨-, -, haccounts⟩ := hcollecting.of_starting hasker
      have hperm := haccounts.perm
      rw [h.starting next hasker]
      rwa [show Report.arrange (List.replicate n none) = [] from arrange_slotsAfter_nil] at hperm
    | receiving reported slots =>
      obtain ⟨-, -, -, haccounts⟩ := hcollecting.of_receiving hasker
      have hperm := haccounts.perm
      rw [h.receiving reported slots hasker] at hperm
      exact (h.perm.symm.append_right _).trans hperm
    | returned total => exact absurd hasker (hnot total)
    | interrupted reported => exact absurd hasker (hcollecting.ne_interrupted reported)
  slots reported slots hasker := by
    obtain ⟨-, -, hlength, haccounts⟩ := hcollecting.of_receiving hasker
    obtain rfl := h.receiving reported slots hasker
    refine ⟨hlength.symm.trans h.perm.length_eq, haccounts.length, ?_⟩
    refine Report.getElem?_slotsAfter (fun i => rfl) fun report hreport => ?_
    obtain ⟨i, -, heq⟩ := haccounts.exists_eq_reportOf
      (List.mem_append_left _ (h.perm.mem_iff.mpr hreport))
    exact ⟨i, heq⟩
  fits reported slots report hasker hhead := by
    obtain ⟨-, -, -, haccounts⟩ := hcollecting.of_receiving hasker
    obtain ⟨queue, hqueue⟩ := List.head?_eq_some_iff.mp hhead
    have hslot := haccounts.slot_eq_none hqueue
    exact ⟨(List.getElem?_eq_some_iff.mp hslot).1.trans_eq haccounts.length, hslot⟩
  flattened slots hasker := hcollecting.arrange_eq hasker
  returns reported slots hasker hall := by
    obtain ⟨-, -, hlength, haccounts⟩ := hcollecting.of_receiving hasker
    have hle : reported ≤ n :=
      hlength.symm.trans_le ((List.length_filterMap_le _ _).trans_eq haccounts.length)
    exact hcollecting.exists_asks hasker (Nat.add_sub_cancel' hle) hall
  returned total hasker := by
    have hcollect := h.returned total hasker
    have hperm := h.perm.symm
    exact ⟨(show Report.arrange _ = _ from hcollect) ▸ hperm, hcollect⟩
  uninterrupted := hcollecting.ne_interrupted

end Traversal

/-! ## Whatever happens -/

namespace Scene

variable {scene scene' : Scene n V} {happening : Happening n V} {number : Nat}
  {arrived : List (Report n)}

/-- The report that the asking thread of a traversal takes in when something happens. -/
def arrival? (scene : Scene n V) (number : Nat) : Happening n V → Option (Report n)
  | .inside other .asker =>
    if other = number then scene.runs[number]?.bind Traversal.incoming? else none
  | _ => none

/-- What the asking thread of a traversal takes in while things happen, in the order in which it
does. -/
def arrivals (scene : Scene n V) (number : Nat) : List (Happening n V) → List (Report n)
  | [] => []
  | happening :: happenings =>
    match scene.step? happening with
    | some scene' =>
      (scene.arrival? number happening).toList ++ scene'.arrivals number happenings
    | none => []

/-- What has come in is what is known of, and nothing before there is a traversal. -/
structure Logged (scene : Scene n V) (number : Nat) (arrived : List (Report n)) : Prop where
  absent : scene.runs[number]? = none → arrived = []
  present : ∀ run, scene.runs[number]? = some run → run.Logged arrived

/-- A step in a traversal is the step of one of its actors. -/
theorem exists_step?_of_isIn (hstep : scene.step? happening = some scene')
    (hin : happening.isIn number = true) :
    ∃ actor run run', happening = .inside number actor ∧ scene.runs[number]? = some run ∧
      run.step? scene.cells number actor = some (scene'.cells, run') ∧
      scene'.runs[number]? = some run' := by
  cases happening with
  | outside act => cases hin
  | opening delivery => cases hin
  | inside other actor =>
    obtain rfl : other = number := eq_of_beq hin
    simp only [step?] at hstep
    split at hstep
    · cases hstep
    · next run hrun =>
      obtain ⟨⟨cells, run'⟩, hactor, rfl⟩ := Option.map_eq_some_iff.mp hstep
      exact ⟨actor, run, run', rfl, hrun, hactor,
        List.getElem?_set_self (List.getElem?_eq_some_iff.mp hrun).1⟩

/-- Nothing comes in in a traversal while something else happens. -/
theorem arrival?_of_isIn_eq_false (h : happening.isIn number = false) :
    scene.arrival? number happening = none := by
  unfold arrival?
  split
  · next other => exact if_neg (ne_of_beq_false h)
  · rfl

/-- Whatever happens, the log is kept. -/
theorem Logged.step (h : scene.Logged number arrived) (hcoherent : scene.Coherent)
    (hstep : scene.step? happening = some scene') :
    scene'.Logged number (arrived ++ (scene.arrival? number happening).toList) := by
  cases hin : happening.isIn number with
  | true =>
    obtain ⟨actor, run, run', rfl, hrun, hactor, hrun'⟩ := exists_step?_of_isIn hstep hin
    have hlogged := h.present run hrun
    have hrest := hcoherent.runs number run hrun
    refine ⟨fun hnone => (by rw [hrun'] at hnone; cases hnone), fun other hother => ?_⟩
    rw [hrun'] at hother
    cases hother
    by_cases hasker : actor = .asker
    · subst hasker
      obtain ⟨after, hafter, heq⟩ := Option.map_eq_some_iff.mp hactor
      obtain rfl := (Prod.mk.inj heq).2
      rw [arrival?, if_pos rfl, hrun, Option.bind_some]
      exact hlogged.stepAsker hrest.collecting hafter
    · have hnone : scene.arrival? number (.inside number actor) = none := by
        unfold arrival?
        split
        · next heq => cases heq; exact absurd rfl hasker
        · rfl
      rw [hnone, Option.toList_none, List.append_nil]
      exact hlogged.move hrest (Traversal.move_of_step? hactor)
        (Traversal.asker_eq hasker hactor)
  | false =>
    rw [arrival?_of_isIn_eq_false hin, Option.toList_none, List.append_nil]
    rcases hcoherent.step_cases hstep number with
      ⟨hin', -⟩ | ⟨-, -, hsame | ⟨hnone, delivery, hnew⟩⟩
    · rw [hin] at hin'
      cases hin'
    · exact ⟨hsame ▸ h.absent, hsame ▸ h.present⟩
    · refine ⟨fun hnone' => (by rw [hnew] at hnone'; cases hnone'), fun run hrun => ?_⟩
      rw [hnew] at hrun
      cases hrun
      rw [h.absent hnone]
      exact .opening delivery

/-- The log of what happened. -/
theorem Logged.play (h : scene.Logged number arrived) (hcoherent : scene.Coherent)
    {happenings : List (Happening n V)} (hplay : scene.play happenings = some scene') :
    scene'.Logged number (arrived ++ scene.arrivals number happenings) := by
  induction happenings generalizing scene arrived with
  | nil =>
    cases hplay
    rwa [arrivals, List.append_nil]
  | cons first happenings ih =>
    obtain ⟨next, hfirst, hrest⟩ := play_cons_eq_some_iff.mp hplay
    rw [arrivals, hfirst, ← List.append_assoc]
    exact ih (h.step hcoherent hfirst) (hcoherent.step hfirst) hrest

/-- From shards at rest the reports come in in any order, and what is made of them does not show
it. -/
theorem inShardOrder_of_play {cells : Cells n V} (hrest : cells.AtRest)
    {happenings : List (Happening n V)} (hplay : play { cells } happenings = some scene)
    {run : Traversal n V} (hrun : scene.runs[number]? = some run) :
    run.InShardOrder (arrivals { cells } number happenings) := by
  have hstart : Logged ({ cells } : Scene n V) number [] :=
    ⟨fun _ => rfl, fun run hnone => (by cases hnone)⟩
  have hcoherent := (Reachable.start cells hrest).coherent
  have hlogged := hstart.play hcoherent hplay
  rw [List.nil_append] at hlogged
  have hrunning := (hcoherent.play hplay).runs number run hrun
  exact (hlogged.present run hrun).inShardOrder hrunning.collecting

end Scene

/-! ## The statement -/

/-- **Reports are put back in the order of the shards.** Let reports with the numbers of the shards
come in in any order, one of each: every one finds a slot that is there and empty, the slots hold
just what has come in, and in the end as many reports as there are shards are taken from them, the
`i`-th that of shard `i`. This is what happens in a snapshot. Whatever else happens, each worker
reports once with its own number, the slots of the asking thread hold just what it has taken in, and
when all have reported it goes on to return without waiting, with the reports in the order of the
shards. -/
theorem Scene.reports_in_shard_order :
    (∀ (report : Fin n → Report n) (arrived : List (Report n)), (∀ i, (report i).index = i.val) →
      arrived.Perm ((List.finRange n).map report) → Report.Arranged report arrived) ∧
    ∀ (cells : Cells n V) (happenings : List (Happening n V)) (scene : Scene n V) (number : Nat)
      (run : Traversal n V), cells.AtRest → play { cells } happenings = some scene →
      scene.runs[number]? = some run →
      run.InShardOrder (arrivals { cells } number happenings) :=
  ⟨fun _ _ => Report.arranged_of_perm,
    fun _ _ _ _ _ hrest hplay hrun => inShardOrder_of_play hrest hplay hrun⟩

/-- Three shards with one, no and two entries. The third worker reports first, then the first and
then the second; the asking thread has taken in one report by then. -/
theorem Scene.reports_in_shard_order_last_first :
    let table : Fin 3 → Table Nat
      | 0 => .ofEntries [("a", 1)]
      | 1 => ∅
      | 2 => .ofEntries [("b", 2), ("c", 3)]
    let cells : Cells 3 Nat := fun i => { table := table i }
    let capture : List (Actor 3) := [.asker, .asker, .asker, .worker 2, .worker 2, .asker, .asker,
      .worker 0, .worker 1, .worker 0, .worker 1, .asker, .asker, .asker]
    let happenings : List (Happening 3 Nat) := .opening .buffered :: capture.map (.inside 0)
    let report : Fin 3 → Report 3 := fun i => { index := i, size := (table i).size, feed := i }
    ∃ (scene : Scene 3 Nat) (run : Traversal 3 Nat),
      play { cells } happenings = some scene ∧ scene.runs[0]? = some run ∧
      run.asker = .returned 3 ∧ arrivals { cells } 0 happenings = [report 2, report 0, report 1] ∧
      Report.collect [report 2, report 0, report 1] = [report 0, report 1, report 2] ∧
      Report.Arranged report [report 2, report 0, report 1] ∧
      run.InShardOrder [report 2, report 0, report 1] := by
  intro table cells capture happenings report
  have hend : ((play { cells } happenings).bind fun scene => scene.runs[0]?).any (fun run =>
      match run.asker with
      | .returned total => total = 3
      | _ => false) = true := by
    decide +kernel
  have harrivals : arrivals { cells } 0 happenings = [report 2, report 0, report 1] := by
    decide +kernel
  obtain ⟨run, hbind, hreturned⟩ := (Option.any_eq_true _ _).mp hend
  obtain ⟨scene, hplay, hrun⟩ := Option.bind_eq_some_iff.mp hbind
  have hasker : run.asker = .returned 3 := by
    split at hreturned
    · next hcase => rw [hcase, of_decide_eq_true hreturned]
    · cases hreturned
  obtain ⟨harranged, hinOrder⟩ := Scene.reports_in_shard_order (n := 3) (V := Nat)
  refine ⟨scene, run, hplay, hrun, hasker, harrivals, by decide +kernel, ?_, ?_⟩
  · exact harranged report _ (fun i => rfl) (by decide +kernel)
  · rw [← harrivals]
    exact hinOrder cells happenings scene 0 run (fun i => rfl) hplay hrun

end ShardStore
