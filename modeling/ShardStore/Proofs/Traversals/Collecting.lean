import Mathlib.Data.List.FinRange
import Mathlib.Data.List.Nodup
import Mathlib.Data.List.Perm.Basic
import ShardStore.Proofs.Traversals.Capture

/-!
# Collecting the reports

Reports come in in any order, each with the number of its shard, and are put into slots.
`Traversal.Accounts` says where the reports of the workers that have reported are: in the slots, or
still in the channel. The asking thread has not given up and never will (`Traversal.Collecting`):
while a report is missing, its worker has not reported yet and so is a sender that is left.

When all reports are there, the slots are full, and their order is that of the shards
(`Traversal.Accounts.arrange_eq`).
-/

namespace ShardStore

namespace Report

variable {n : Nat}

/-- A report put into an empty slot is one report more. -/
theorem arrange_place_perm {slots : List (Option (Report n))} {report : Report n}
    (h : slots[report.index]? = some none) :
    (arrange (place slots report)).Perm (report :: arrange slots) := by
  obtain ⟨hlt, hnone⟩ := List.getElem?_eq_some_iff.mp h
  have hslots : (some report :: slots.eraseIdx report.index).filterMap id =
      report :: (slots.eraseIdx report.index).filterMap id := rfl
  have hset := (List.set_perm_cons_eraseIdx hlt (some report)).filterMap id
  have herase := (List.getElem_cons_eraseIdx_perm hlt).filterMap id
  rw [hnone] at herase
  rw [hslots] at hset
  exact hset.trans (herase.cons report)

/-- Full slots hold their reports in the order of the shards. -/
theorem arrange_eq_map {slots : List (Option (Report n))} (hlength : slots.length = n)
    (f : Fin n → Report n) (h : ∀ i : Fin n, slots[i.val]? = some (some (f i))) :
    arrange slots = (List.finRange n).map f := by
  have hslots : slots = (List.finRange n).map fun i => some (f i) := by
    refine List.ext_getElem (by simp [hlength]) fun j hj hj' => ?_
    have hslot := h ⟨j, hlength ▸ hj⟩
    rw [List.getElem?_eq_getElem hj] at hslot
    simp only [List.getElem_map, List.getElem_finRange]
    exact Option.some.inj hslot
  rw [hslots, arrange, List.filterMap_map]
  exact congrFun (List.filterMap_eq_map (f := f)) (List.finRange n)

end Report

/-- Whether a worker has made its report, if anybody listened. -/
def Worker.hasReported : Worker → Bool
  | .copying _ => true
  | .closed => true
  | .ended => true
  | _ => false

/-- Whether a worker was started and has yet to report. -/
def Worker.isPending : Worker → Bool
  | .started => true
  | .locked => true
  | _ => false

/-- The shards whose workers are at certain stages. -/
def shardsWhere {n : Nat} (workers : Fin n → Worker) (p : Worker → Bool) : List (Fin n) :=
  (List.finRange n).filter fun i => p (workers i)

section shardsWhere

variable {n : Nat} {workers : Fin n → Worker} {p : Worker → Bool} {i : Fin n} {worker : Worker}

theorem mem_shardsWhere : i ∈ shardsWhere workers p ↔ p (workers i) = true := by
  simp [shardsWhere]

theorem nodup_shardsWhere : (shardsWhere workers p).Nodup :=
  (List.nodup_finRange n).filter _

theorem shardsWhere_of_forall (h : ∀ i, p (workers i) = true) :
    shardsWhere workers p = List.finRange n :=
  List.filter_eq_self.mpr fun i _ => h i

/-- A worker that enters an equal stage changes nothing. -/
theorem shardsWhere_update (h : p worker = p (workers i)) :
    shardsWhere (Function.update workers i worker) p = shardsWhere workers p := by
  refine List.filter_congr fun j _ => ?_
  by_cases hj : j = i
  · subst hj
    rw [Function.update_self, h]
  · rw [Function.update_of_ne hj]

/-- A worker that enters such a stage is one more. -/
theorem shardsWhere_update_perm (workers : Fin n → Worker) (p : Worker → Bool) (i : Fin n)
    (worker : Worker) (h : p (workers i) = false) (h' : p worker = true) :
    (shardsWhere (Function.update workers i worker) p).Perm (i :: shardsWhere workers p) := by
  have hnot : i ∉ shardsWhere workers p := by simp [mem_shardsWhere, h]
  refine (List.perm_ext_iff_of_nodup nodup_shardsWhere
    (List.nodup_cons.mpr ⟨hnot, nodup_shardsWhere⟩)).mpr fun j => ?_
  rw [mem_shardsWhere, List.mem_cons, mem_shardsWhere]
  by_cases hj : j = i
  · subst hj
    simp [h']
  · simp [hj]

/-- A worker that leaves such a stage is one less. -/
theorem length_shardsWhere_update (workers : Fin n → Worker) (p : Worker → Bool) (i : Fin n)
    (worker : Worker) (h : p (workers i) = true) (h' : p worker = false) :
    (shardsWhere (Function.update workers i worker) p).length + 1 =
      (shardsWhere workers p).length := by
  have hback : Function.update (Function.update workers i worker) i (workers i) = workers := by
    rw [Function.update_idem, Function.update_eq_self]
  have hperm := shardsWhere_update_perm (Function.update workers i worker) p i (workers i)
    (by rw [Function.update_self]; exact h') h
  rw [hback] at hperm
  exact hperm.length_eq.symm

end shardsWhere

namespace Traversal

variable {n : Nat} {V : Type} {cells cells' : Cells n V} {number : Nat} {run run' : Traversal n V}

/-- The report of a worker on what it has captured. -/
def reportOf (run : Traversal n V) (i : Fin n) : Report n :=
  { index := i, size := (run.entries i).length, feed := i }

/-- The reports that were made are in the slots or still in the channel, each once, and those in
the slots are in their own. -/
structure Accounts (run : Traversal n V) (slots : List (Option (Report n))) : Prop where
  length : slots.length = n
  index : ∀ (j : Nat) (report : Report n), slots[j]? = some (some report) → report.index = j
  perm : (Report.arrange slots ++ run.reports.queue).Perm
    ((shardsWhere run.workers Worker.hasReported).map run.reportOf)
  capacity : run.reports.capacity = n
  listening : run.reports.receiving = true

namespace Accounts

variable {slots : List (Option (Report n))}

/-- Only the channel, the workers that have reported, and what these have captured matter. -/
theorem congr (h : run.Accounts slots) (hqueue : run'.reports.queue = run.reports.queue)
    (hcapacity : run'.reports.capacity = run.reports.capacity)
    (hreceiving : run'.reports.receiving = run.reports.receiving)
    (hwhere : shardsWhere run'.workers Worker.hasReported =
      shardsWhere run.workers Worker.hasReported)
    (hentries : ∀ i, (run.workers i).hasReported = true → run'.entries i = run.entries i) :
    run'.Accounts slots where
  length := h.length
  index := h.index
  perm := by
    have hmap : (shardsWhere run.workers Worker.hasReported).map run'.reportOf =
        (shardsWhere run.workers Worker.hasReported).map run.reportOf := by
      refine List.map_congr_left fun i hi => ?_
      rw [reportOf, reportOf, hentries i (mem_shardsWhere.mp hi)]
    rw [hqueue, hwhere, hmap]
    exact h.perm
  capacity := hcapacity.trans h.capacity
  listening := hreceiving.trans h.listening

/-- Whatever is in a slot or in the channel is the report of a worker. -/
theorem exists_eq_reportOf (h : run.Accounts slots) {report : Report n}
    (hmem : report ∈ Report.arrange slots ++ run.reports.queue) :
    ∃ i, (run.workers i).hasReported = true ∧ run.reportOf i = report := by
  obtain ⟨i, hi, heq⟩ := List.mem_map.mp (h.perm.mem_iff.mp hmem)
  exact ⟨i, mem_shardsWhere.mp hi, heq⟩

theorem nodup (h : run.Accounts slots) :
    (Report.arrange slots ++ run.reports.queue).Nodup := by
  refine h.perm.nodup_iff.mpr (nodup_shardsWhere.map fun i j hij => ?_)
  exact (congrArg Report.feed hij)

/-- The slot of a report in the channel is empty. -/
theorem slot_eq_none (h : run.Accounts slots) {report : Report n} {queue : List (Report n)}
    (hqueue : run.reports.queue = report :: queue) : slots[report.index]? = some none := by
  have hmem : report ∈ Report.arrange slots ++ run.reports.queue := by simp [hqueue]
  obtain ⟨i, -, rfl⟩ := h.exists_eq_reportOf hmem
  have hlt : i.val < slots.length := by rw [h.length]; exact i.isLt
  change slots[i.val]? = some none
  rw [List.getElem?_eq_getElem hlt]
  rcases hslot : slots[i.val] with _ | report
  · rfl
  · -- A report in that slot would be the same one, which is not there twice.
    have hslot? : slots[i.val]? = some (some report) := by rw [List.getElem?_eq_getElem hlt, hslot]
    have harrange : report ∈ Report.arrange slots :=
      List.mem_filterMap.mpr ⟨some report, List.mem_of_getElem? hslot?, rfl⟩
    obtain ⟨j, -, rfl⟩ := h.exists_eq_reportOf (List.mem_append_left _ harrange)
    have hindex : j.val = i.val := h.index i.val _ hslot?
    obtain rfl : j = i := Fin.ext hindex
    have hdisjoint := (List.nodup_append.mp h.nodup).2.2 _ harrange (run.reportOf j)
      (by rw [hqueue]; exact List.mem_cons_self)
    exact absurd rfl hdisjoint

/-- Taking a report out of the channel puts it into its slot. -/
theorem note (h : run.Accounts slots) {report : Report n} {queue : List (Report n)}
    (hqueue : run.reports.queue = report :: queue) {asker : Asker n} :
    Accounts { run with asker, reports := { run.reports with queue } }
      (Report.place slots report) where
  length := by rw [Report.place, List.length_set, h.length]
  index j other hother := by
    by_cases hj : report.index = j
    · subst hj
      rw [Report.place, List.getElem?_set_self (List.getElem?_eq_some_iff.mp
        (h.slot_eq_none hqueue)).1] at hother
      rw [← Option.some.inj (Option.some.inj hother)]
    · rw [Report.place, List.getElem?_set_ne hj] at hother
      exact h.index j other hother
  perm := by
    have hperm := h.perm
    rw [hqueue] at hperm
    refine List.Perm.trans ?_ hperm
    refine ((Report.arrange_place_perm (h.slot_eq_none hqueue)).append_right queue).trans ?_
    exact List.perm_middle.symm
  capacity := h.capacity
  listening := h.listening

/-- A worker that reports has one report more in the channel. -/
theorem report (h : run.Accounts slots) {i : Fin n} {worker : Worker} {asker : Asker n}
    {feeds : Fin n → Channel (String × V)} {senders : Nat}
    (hbefore : (run.workers i).hasReported = false) (hafter : worker.hasReported = true) :
    Accounts { run with
      asker
      workers := Function.update run.workers i worker
      feeds
      reports := { run.reports with
        queue := run.reports.queue ++ [run.reportOf i]
        senders } } slots where
  length := h.length
  index := h.index
  perm := by
    have hmap := (shardsWhere_update_perm _ _ i worker hbefore hafter).map run.reportOf
    refine List.Perm.trans ?_ hmap.symm
    rw [List.map_cons]
    change (Report.arrange slots ++ (run.reports.queue ++ [run.reportOf i])).Perm _
    rw [← List.append_assoc]
    exact (List.perm_append_singleton _ _).trans (h.perm.cons _)
  capacity := h.capacity
  listening := h.listening

/-- When there are as many reports in the slots as shards, all are there, in order. -/
theorem arrange_eq (h : run.Accounts slots) (hall : (Report.arrange slots).length = n) :
    (∀ i, (run.workers i).hasReported = true) ∧
      Report.arrange slots = (List.finRange n).map run.reportOf := by
  have hlength := h.perm.length_eq
  rw [List.length_append, List.length_map, hall] at hlength
  have hsub : (shardsWhere run.workers Worker.hasReported).Sublist (List.finRange n) :=
    List.filter_sublist
  have hle := hsub.length_le
  rw [List.length_finRange] at hle
  have heq := hsub.eq_of_length (by rw [List.length_finRange]; omega)
  have hreported (i : Fin n) : (run.workers i).hasReported = true := by
    rw [← mem_shardsWhere (p := Worker.hasReported), heq]
    exact List.mem_finRange i
  have hqueue : run.reports.queue = [] := List.eq_nil_of_length_eq_zero (by omega)
  refine ⟨hreported, Report.arrange_eq_map h.length run.reportOf fun i => ?_⟩
  have hmem : run.reportOf i ∈ Report.arrange slots := by
    have hperm := h.perm
    rw [hqueue, List.append_nil] at hperm
    exact hperm.mem_iff.mpr (List.mem_map_of_mem (mem_shardsWhere.mpr (hreported i)))
  obtain ⟨slot, hslot, hid⟩ := List.mem_filterMap.mp hmem
  obtain rfl : slot = some (run.reportOf i) := hid
  obtain ⟨j, hj⟩ := List.mem_iff_getElem?.mp hslot
  rw [← h.index j _ hj] at hj
  exact hj

/-- While a report is missing and none is in the channel, some worker has yet to report. -/
theorem exists_not_hasReported (h : run.Accounts slots)
    (hmissing : (Report.arrange slots).length ≠ n) (hqueue : run.reports.queue = []) :
    ∃ i, (run.workers i).hasReported = false := by
  by_contra hnone
  simp only [not_exists, Bool.not_eq_false] at hnone
  have hlength := h.perm.length_eq
  rw [shardsWhere_of_forall hnone, hqueue, List.append_nil, List.length_map,
    List.length_finRange] at hlength
  exact hmissing hlength

end Accounts

/-- Where the asking thread stands is where the reports are. -/
def Collecting (run : Traversal n V) : Prop :=
  match run.asker with
  | .starting next => next ≤ n ∧ (∀ i, run.workers i = .absent ↔ next ≤ i.val) ∧
    run.reports.senders = (shardsWhere run.workers Worker.isPending).length + 1 ∧
    run.Accounts (List.replicate n none)
  | .receiving reported slots => (∀ i, run.workers i ≠ .absent) ∧
    run.reports.senders = (shardsWhere run.workers Worker.isPending).length ∧
    (Report.arrange slots).length = reported ∧ run.Accounts slots
  | .returned total => (∀ i, (run.workers i).hasReported = true) ∧ total = run.all.length
  | .interrupted _ => False

namespace Collecting

theorem of_starting (h : run.Collecting) {next : Nat} (hasker : run.asker = .starting next) :
    (∀ i, run.workers i = .absent ↔ next ≤ i.val) ∧
      run.reports.senders = (shardsWhere run.workers Worker.isPending).length + 1 ∧
      run.Accounts (List.replicate n none) := by
  rw [Collecting, hasker] at h
  exact h.2

theorem of_receiving (h : run.Collecting) {reported : Nat} {slots : List (Option (Report n))}
    (hasker : run.asker = .receiving reported slots) : (∀ i, run.workers i ≠ .absent) ∧
      run.reports.senders = (shardsWhere run.workers Worker.isPending).length ∧
      (Report.arrange slots).length = reported ∧ run.Accounts slots := by
  rw [Collecting, hasker] at h
  exact h

/-- When the asking thread has returned, all workers have reported. -/
theorem of_returned (h : run.Collecting) {total : Nat} (hasker : run.asker = .returned total) :
    (∀ i, (run.workers i).hasReported = true) ∧ total = run.all.length := by
  rw [Collecting, hasker] at h
  exact h

/-- The asking thread has not given up. -/
theorem ne_interrupted (h : run.Collecting) (reported : Nat) :
    run.asker ≠ .interrupted reported := by
  intro hasker
  rw [Collecting, hasker] at h
  exact h

/-- Only the asking thread, the channel of the reports and how far the workers are with reporting
matter. -/
theorem congr (h : run.Collecting) (hasker : run'.asker = run.asker)
    (hreports : run'.reports = run.reports)
    (hpending : shardsWhere run'.workers Worker.isPending =
      shardsWhere run.workers Worker.isPending)
    (hreported : shardsWhere run'.workers Worker.hasReported =
      shardsWhere run.workers Worker.hasReported)
    (habsent : ∀ i, run'.workers i = .absent ↔ run.workers i = .absent)
    (hentries : ∀ i, (run.workers i).hasReported = true → run'.entries i = run.entries i) :
    run'.Collecting := by
  have haccounts {slots : List (Option (Report n))} (h : run.Accounts slots) :
      run'.Accounts slots :=
    h.congr (by rw [hreports]) (by rw [hreports]) (by rw [hreports]) hreported hentries
  unfold Collecting at h ⊢
  rw [hasker]
  rcases hcase : run.asker with next | ⟨reported, slots⟩ | total | reported
  · rw [hcase] at h
    obtain ⟨hle, hstarted, hsenders, hrest⟩ := h
    refine ⟨hle, fun i => (habsent i).trans (hstarted i), ?_, haccounts hrest⟩
    rw [hreports, hpending, hsenders]
  · rw [hcase] at h
    obtain ⟨hstarted, hsenders, hlength, hrest⟩ := h
    refine ⟨fun i hi => hstarted i ((habsent i).mp hi), ?_, hlength, haccounts hrest⟩
    rw [hreports, hpending, hsenders]
  · rw [hcase] at h
    obtain ⟨hall, htotal⟩ := h
    refine ⟨fun i => ?_, ?_⟩
    · rw [← mem_shardsWhere (p := Worker.hasReported), hreported]
      exact mem_shardsWhere.mpr (hall i)
    · have hsame : run'.entries = run.entries := funext fun i => hentries i (hall i)
      rw [htotal, all, all, hsame]
  · rw [hcase] at h
    exact h.elim

/-- A worker that goes on without reporting leaves the reports where they are. -/
theorem enter (h : run.Collecting) {i : Fin n} {worker : Worker} (hasker : run'.asker = run.asker)
    (hreports : run'.reports = run.reports)
    (hworkers : run'.workers = Function.update run.workers i worker)
    (hpending : worker.isPending = (run.workers i).isPending)
    (hreported : worker.hasReported = (run.workers i).hasReported)
    (habsent : worker ≠ .absent ∧ run.workers i ≠ .absent)
    (hentries : ∀ i, (run.workers i).hasReported = true → run'.entries i = run.entries i) :
    run'.Collecting := by
  refine h.congr hasker hreports ?_ ?_ (fun j => ?_) hentries
  · rw [hworkers, shardsWhere_update hpending]
  · rw [hworkers, shardsWhere_update hreported]
  · rw [hworkers]
    by_cases hj : j = i
    · subst hj
      rw [Function.update_self]
      exact ⟨fun hw => absurd hw habsent.1, fun hw => absurd hw habsent.2⟩
    · rw [Function.update_of_ne hj]

/-- Every worker is started once. -/
theorem absent_of_starting (h : run.Collecting) (next : Nat) (hlt : next < n)
    (hasker : run.asker = .starting next) : run.workers ⟨next, hlt⟩ = .absent := by
  exact ((h.of_starting hasker).1 ⟨next, hlt⟩).mpr (Nat.le_refl next)

/-- Until the asking thread has returned, it listens for reports, and there is room for them. -/
theorem listening (h : run.Collecting) {i : Fin n} (hi : (run.workers i).hasReported = false) :
    ∃ slots, run.Accounts slots := by
  unfold Collecting at h
  split at h
  · exact ⟨_, h.2.2.2⟩
  · exact ⟨_, h.2.2.2⟩
  · rw [h.1 i] at hi
    cases hi
  · exact h.elim

/-- The sizes of all reports add up to the number of captured entries. -/
theorem sumOf_size (run : Traversal n V) :
    sumOf (((List.finRange n).map run.reportOf).map Report.size) = run.all.length := by
  rw [all, List.length_flatMap, List.map_map]
  rfl

/-- Starting a worker. -/
theorem start (h : run.Collecting) {next : Nat} (hasker : run.asker = .starting next)
    (hlt : next < n) :
    Collecting { run with
      asker := .starting (next + 1)
      workers := Function.update run.workers ⟨next, hlt⟩ .started
      reports := run.reports.addSender } := by
  have habsent := h.absent_of_starting next hlt hasker
  obtain ⟨hstarted, hsenders, hrest⟩ := h.of_starting hasker
  refine ⟨hlt, fun i => ?_, ?_, ?_⟩
  · by_cases hi : i = ⟨next, hlt⟩
    · subst hi
      simp
    · have hne : i.val ≠ next := fun heq => hi (Fin.ext heq)
      simp only [Function.update_of_ne hi]
      rw [hstarted i]
      omega
  · have hperm := shardsWhere_update_perm run.workers Worker.isPending ⟨next, hlt⟩ .started
      (by rw [habsent]; rfl) rfl
    simp only [Channel.addSender, hperm.length_eq, List.length_cons, hsenders]
  · refine hrest.congr rfl rfl rfl (shardsWhere_update ?_) (fun _ _ => rfl)
    simp [habsent, Worker.hasReported]

/-- Having started all workers. -/
theorem listen (h : run.Collecting) {next : Nat} (hasker : run.asker = .starting next)
    (hlt : ¬next < n) :
    Collecting { run with
      asker := .receiving 0 (List.replicate n none)
      reports := run.reports.dropSender } := by
  obtain ⟨hstarted, hsenders, hrest⟩ := h.of_starting hasker
  refine ⟨fun i hi => ?_, ?_, ?_, hrest.congr rfl rfl rfl rfl fun _ _ => rfl⟩
  · have hle := (hstarted i).mp hi
    have hi := i.isLt
    omega
  · simp only [Channel.dropSender, hsenders]
    omega
  · simp [Report.arrange]

/-- All reports are those of all workers, in the order of the shards. -/
theorem arrange_eq (h : run.Collecting) {slots : List (Option (Report n))}
    (hasker : run.asker = .receiving n slots) : (∀ i, (run.workers i).hasReported = true) ∧
      Report.arrange slots = (List.finRange n).map run.reportOf := by
  obtain ⟨-, -, hlength, hrest⟩ := h.of_receiving hasker
  exact hrest.arrange_eq hlength

/-- Having all reports. -/
theorem handOver (h : run.Collecting) {slots : List (Option (Report n))}
    (hasker : run.asker = .receiving n slots) : (run.handOver slots).Collecting := by
  obtain ⟨hall, harrange⟩ := h.arrange_eq hasker
  refine ⟨hall, ?_⟩
  rw [harrange]
  exact sumOf_size run

/-- Taking a report in. -/
theorem note (h : run.Collecting) {reported : Nat} {slots : List (Option (Report n))}
    {report : Report n} {queue : List (Report n)} (hasker : run.asker = .receiving reported slots)
    (hqueue : run.reports.queue = report :: queue) :
    Collecting { run with
      asker := .receiving (reported + 1) (Report.place slots report)
      reports := { run.reports with queue } } := by
  obtain ⟨hstarted, hsenders, hlength, hrest⟩ := h.of_receiving hasker
  refine ⟨hstarted, hsenders, ?_, hrest.note hqueue⟩
  rw [(Report.arrange_place_perm (hrest.slot_eq_none hqueue)).length_eq, List.length_cons, hlength]

/-- The asking thread has no reason to give up. -/
theorem not_giveUp (h : run.Collecting) {reported : Nat} {slots : List (Option (Report n))}
    (hasker : run.asker = .receiving reported slots) (hmore : reported ≠ n)
    (hqueue : run.reports.queue = []) : run.reports.senders ≠ 0 := by
  obtain ⟨hstarted, hsenders, hlength, hrest⟩ := h.of_receiving hasker
  obtain ⟨i, hi⟩ := hrest.exists_not_hasReported (by rwa [hlength]) hqueue
  have hpending : i ∈ shardsWhere run.workers Worker.isPending := by
    rw [mem_shardsWhere]
    have habsent := hstarted i
    cases hworker : run.workers i <;> simp_all [Worker.isPending, Worker.hasReported]
  rw [hsenders]
  exact Nat.ne_of_gt (List.length_pos_of_mem hpending)

/-- Every worker finds somebody to report to. -/
theorem not_withhold (h : run.Collecting) {i : Fin n} (hworker : run.workers i = .locked) :
    run.reports.receiving ≠ false := by
  obtain ⟨slots, hrest⟩ := h.listening (i := i) (by rw [hworker]; rfl)
  rw [hrest.listening]
  simp

/-- Making a report. -/
theorem report (h : run.Collecting) {i : Fin n} (hworker : run.workers i = .locked)
    {feeds : Fin n → Channel (String × V)} :
    Collecting { run with
      workers := Function.update run.workers i (.copying 0)
      feeds
      reports := { run.reports with
        queue := run.reports.queue ++ [run.reportOf i]
        senders := run.reports.senders - 1 } } := by
  have hbefore : (run.workers i).hasReported = false := by rw [hworker]; rfl
  have hpending := length_shardsWhere_update run.workers Worker.isPending i (.copying 0)
    (by rw [hworker]; rfl) rfl
  unfold Collecting at h ⊢
  -- A report may come while others are being started, or later, but not after all have come.
  rcases hcase : run.asker with next | ⟨reported, slots⟩ | total | reported
  · rw [hcase] at h
    obtain ⟨hle, hstarted, hsenders, hrest⟩ := h
    refine ⟨hle, fun j => ?_, ?_, hrest.report hbefore rfl⟩
    · by_cases hj : j = i
      · subst hj
        have hnot := (hstarted j).not.mp (by rw [hworker]; simp)
        simp [hnot]
      · simp only [Function.update_of_ne hj]
        exact hstarted j
    · simp only [hsenders]
      omega
  · rw [hcase] at h
    obtain ⟨hstarted, hsenders, hlength, hrest⟩ := h
    refine ⟨fun j => ?_, ?_, hlength, hrest.report hbefore rfl⟩
    · by_cases hj : j = i
      · subst hj
        simp
      · simp only [Function.update_of_ne hj]
        exact hstarted j
    · simp only [hsenders]
      omega
  · rw [hcase] at h
    rw [h.1 i] at hbefore
    cases hbefore
  · rw [hcase] at h
    exact h.elim

/-- A move in a traversal keeps the account of its reports. -/
theorem move (h : run.Collecting) (hguarded : run.Guarded cells number)
    (hmove : Move cells number run cells' run') : run'.Collecting := by
  cases hmove with
  | start hasker hlt => exact h.start hasker hlt
  | listen hasker hlt => exact h.listen hasker hlt
  | handOver hasker => exact h.handOver hasker
  | note hasker hmore hqueue => exact h.note hasker hqueue
  | giveUp hasker hmore hqueue hsenders => exact absurd hsenders (h.not_giveUp hasker hmore hqueue)
  | @lock i hworker hgrants =>
    -- What this worker captures is in no report yet.
    refine h.enter rfl rfl rfl (by simp [hworker, Worker.isPending])
      (by simp [hworker, Worker.hasReported]) (by simp [hworker]) fun j hj => ?_
    have hne : j ≠ i := by
      rintro rfl
      rw [hworker] at hj
      cases hj
    simp only [entries, Function.update_of_ne hne]
  | report hworker hopen hroom =>
    rw [hguarded.size_eq (by rw [hworker]; rfl)]
    exact h.report hworker
  | withhold hworker hclosed => exact absurd hclosed (h.not_withhold hworker)
  | send hworker hentry hopen hroom =>
    exact h.enter rfl rfl rfl (by simp [hworker, Worker.isPending])
      (by simp [hworker, Worker.hasReported]) (by simp [hworker]) fun _ _ => rfl
  | close hworker hwhy =>
    exact h.enter rfl rfl rfl (by simp [hworker, Worker.isPending])
      (by simp [hworker, Worker.hasReported]) (by simp [hworker]) fun _ _ => rfl
  | unlock hworker =>
    exact h.enter rfl rfl rfl (by simp [hworker, Worker.isPending])
      (by simp [hworker, Worker.hasReported]) (by simp [hworker]) fun _ _ => rfl
  | _ => exact h.congr rfl rfl rfl rfl (fun _ => Iff.rfl) fun _ _ => rfl

end Collecting

end Traversal

end ShardStore
