import Mathlib.Data.List.Infix
import ShardStore.Proofs.Traversals.Feeds

/-!
# The flow of the entries

Entries go from a worker's table through its channel, the merging worker's hand and the output to
the consumer. Wherever they are, put one after another they are all captured entries in the order
of the shards (`Traversal.Flowing.flow`), as long as the consumer is there. So what the consumer
got is always a beginning of them, and it is told that there are no more only when it got all
(`Traversal.Flowing.complete`).

`Traversal.InStep` says how the asking thread, the merging worker, the output and the consumer stand
to each other, whatever the entries are.
-/

namespace ShardStore

/-- How many senders of the output the merging worker leaves. -/
def Merger.senders {n : Nat} {V : Type} : Merger n V → Nat
  | .ended => 0
  | _ => 1

namespace Traversal

variable {n : Nat} {V : Type} {cells cells' : Cells n V} {number : Nat} {run run' : Traversal n V}

/-! ## How the parties stand to each other -/

/-- The merging worker and the consumer are there when the asking thread has returned, and the
output is open as long as they are. -/
structure InStep (run : Traversal n V) : Prop where
  merging : run.merger = .absent ↔ ∀ total, run.asker ≠ .returned total
  consuming : run.consumer = .absent ↔ run.merger = .absent
  listening : run.output.receiving = false ↔ run.consumer = .gone
  senders : run.output.senders = run.merger.senders
  room : run.output.queue.length ≤ run.output.capacity
  /-- Before the merging worker there is nothing to consume. -/
  fresh : run.merger = .absent → run.received = [] ∧ run.output.queue = [] ∧ run.ends = 0

namespace InStep

theorem merger_ne_absent (h : run.InStep) (hconsumer : run.consumer ≠ .absent) :
    run.merger ≠ .absent :=
  h.consuming.not.mp hconsumer

theorem merger_eq_absent (h : run.InStep) (hasker : ∀ total, run.asker ≠ .returned total) :
    run.merger = .absent :=
  h.merging.mpr hasker

/-- The asking thread has returned when there is a merging worker. -/
theorem exists_returned (h : run.InStep) (hmerger : run.merger ≠ .absent) :
    ∃ total, run.asker = .returned total := by
  have hnot := h.merging.not.mp hmerger
  simpa using hnot

/-- A move of the asking thread that does not return. -/
theorem ask (h : run.InStep) (hbefore : ∀ total, run.asker ≠ .returned total)
    (hafter : ∀ total, run'.asker ≠ .returned total) (hmerger : run'.merger = run.merger)
    (hconsumer : run'.consumer = run.consumer) (houtput : run'.output = run.output)
    (hreceived : run'.received = run.received) (hends : run'.ends = run.ends) : run'.InStep where
  merging := iff_of_true (hmerger.trans (h.merger_eq_absent hbefore)) hafter
  consuming := by rw [hconsumer, hmerger]; exact h.consuming
  listening := by rw [houtput, hconsumer]; exact h.listening
  senders := by rw [houtput, hmerger]; exact h.senders
  room := by rw [houtput]; exact h.room
  fresh := by rw [hmerger, hreceived, houtput, hends]; exact h.fresh

/-- A move of the merging worker or the consumer. -/
theorem merge (h : run.InStep) (hbefore : run.merger ≠ .absent) (hafter : run'.merger ≠ .absent)
    (hasker : run'.asker = run.asker) (hconsumer : run'.consumer ≠ .absent)
    (hlistening : run'.output.receiving = false ↔ run'.consumer = .gone)
    (hsenders : run'.output.senders = run'.merger.senders)
    (hroom : run'.output.queue.length ≤ run'.output.capacity) : run'.InStep where
  merging := by rw [hasker]; exact iff_of_false hafter (h.merging.not.mp hbefore)
  consuming := iff_of_false hconsumer hafter
  listening := hlistening
  senders := hsenders
  room := hroom
  fresh hmerger := absurd hmerger hafter

/-- A move in a traversal leaves the parties in step. -/
theorem move (h : run.InStep) (hcollecting : run.Collecting)
    (hmove : Move cells number run cells' run') : run'.InStep := by
  cases hmove with
  | start hasker hlt => exact h.ask (by simp [hasker]) (by simp) rfl rfl rfl rfl rfl
  | listen hasker hlt => exact h.ask (by simp [hasker]) (by simp) rfl rfl rfl rfl rfl
  | note hasker hmore hqueue => exact h.ask (by simp [hasker]) (by simp) rfl rfl rfl rfl rfl
  | giveUp hasker hmore hqueue hsenders =>
    exact absurd hsenders (hcollecting.not_giveUp hasker hmore hqueue)
  | handOver hasker =>
    constructor <;> simp [Traversal.handOver, Merger.senders]
  | drained hmerger =>
    have hbefore : run.merger ≠ .absent := by rw [hmerger]; simp
    refine h.merge hbefore (by simp) rfl (h.consuming.not.mpr hbefore) h.listening ?_ h.room
    simp only [Channel.dropSender, h.senders, hmerger, Merger.senders]
  | receive hmerger hqueue =>
    have hbefore : run.merger ≠ .absent := by rw [hmerger]; simp
    refine h.merge hbefore (by simp) rfl (h.consuming.not.mpr hbefore) h.listening ?_ h.room
    simp only [h.senders, hmerger, Merger.senders]
  | advance hmerger hqueue hsenders =>
    have hbefore : run.merger ≠ .absent := by rw [hmerger]; simp
    refine h.merge hbefore (by simp) rfl (h.consuming.not.mpr hbefore) h.listening ?_ h.room
    simp only [h.senders, hmerger, Merger.senders]
  | forward hmerger hopen hroom =>
    have hbefore : run.merger ≠ .absent := by rw [hmerger]; simp
    refine h.merge hbefore (by simp) rfl (h.consuming.not.mpr hbefore) h.listening ?_ ?_
    · simp only [h.senders, hmerger, Merger.senders]
    · simp only [List.length_append, List.length_singleton]
      omega
  | give hmerger hopen hcapacity hconsumer =>
    refine h.merge (by rw [hmerger]; simp) (by simp) rfl (by simp) ?_ ?_ h.room
    · simp [hopen]
    · simp only [h.senders, hmerger, Merger.senders]
  | abort hmerger hclosed =>
    have hbefore : run.merger ≠ .absent := by rw [hmerger]; simp
    refine h.merge hbefore (by simp) rfl (h.consuming.not.mpr hbefore) h.listening ?_ h.room
    simp only [Channel.dropSender, h.senders, hmerger, Merger.senders]
  | ask hconsumer =>
    have hbefore := h.merger_ne_absent (by rw [hconsumer]; simp)
    refine h.merge hbefore hbefore rfl (by simp) ?_ h.senders h.room
    simp [h.listening, hconsumer]
  | take hconsumer hqueue =>
    have hbefore := h.merger_ne_absent (by rw [hconsumer]; simp)
    have hroom := h.room
    rw [hqueue, List.length_cons] at hroom
    refine h.merge hbefore hbefore rfl (by simp) ?_ h.senders (Nat.le_of_succ_le hroom)
    simp [h.listening, hconsumer]
  | learn hconsumer hqueue hsenders =>
    have hbefore := h.merger_ne_absent (by rw [hconsumer]; simp)
    refine h.merge hbefore hbefore rfl (by simp) ?_ h.senders h.room
    simp [h.listening, hconsumer]
  | leave hconsumer =>
    have hbefore := h.merger_ne_absent (by rw [hconsumer]; simp)
    exact h.merge hbefore hbefore rfl (by simp) (by simp [Channel.dropReceiver]) h.senders
      (Nat.zero_le _)
  | _ => exact ⟨h.merging, h.consuming, h.listening, h.senders, h.room, h.fresh⟩

end InStep

/-! ## Where the entries are -/

/-- The shards that the merging worker is not through with, in its order. -/
def ahead (run : Traversal n V) : List (Fin n) :=
  match run.merger with
  | .absent => List.finRange n
  | .draining left => left.map Report.feed
  | .sending _ left => left.map Report.feed
  | .ended => []

/-- The entry in the merging worker's hand. -/
def inHand (run : Traversal n V) : List (String × V) :=
  match run.merger with
  | .sending entry _ => [entry]
  | _ => []

theorem ahead_of_absent (h : run.merger = .absent) : run.ahead = List.finRange n := by
  rw [ahead, h]

theorem ahead_of_draining {left : List (Report n)} (h : run.merger = .draining left) :
    run.ahead = left.map Report.feed := by
  rw [ahead, h]

theorem ahead_of_sending {entry : String × V} {left : List (Report n)}
    (h : run.merger = .sending entry left) : run.ahead = left.map Report.feed := by
  rw [ahead, h]

theorem ahead_of_ended (h : run.merger = .ended) : run.ahead = [] := by
  rw [ahead, h]

theorem inHand_of_sending {entry : String × V} {left : List (Report n)}
    (h : run.merger = .sending entry left) : run.inHand = [entry] := by
  rw [inHand, h]

theorem inHand_of_draining {left : List (Report n)} (h : run.merger = .draining left) :
    run.inHand = [] := by
  rw [inHand, h]

theorem inHand_of_ended (h : run.merger = .ended) : run.inHand = [] := by
  rw [inHand, h]

/-- The captured entries are on their way to the consumer, in the order of the shards. -/
structure Flowing (run : Traversal n V) : Prop where
  ordered : run.ahead <:+ List.finRange n
  opened : ∀ i, (run.feeds i).receiving = true ↔ i ∈ run.ahead
  buffered : run.merger ≠ .absent → run.delivery = .buffered →
    run.output.capacity = run.all.length
  handed : run.merger ≠ .absent → run.delivery = .handed → run.output.capacity = 0
  whole : run.merger = .absent → ∀ i, run.rest i = run.entries i
  flow : run.consumer ≠ .gone →
    run.received ++ run.output.queue ++ run.inHand ++ run.ahead.flatMap run.rest = run.all
  beginning : run.received <+: run.all
  complete : 0 < run.ends → run.received = run.all

namespace Flowing

/-- The merging worker passes each shard once. -/
theorem nodup (h : run.Flowing) : run.ahead.Nodup :=
  h.ordered.nodup (List.nodup_finRange n)

/-- An entry that the merging worker takes out of the first channel was the first that was left. -/
theorem rest_receive (h : run.Flowing) (hfeeding : ∀ i, run.Feeding i)
    {report : Report n} {left : List (Report n)} {entry : String × V} {queue : List (String × V)}
    (hmerger : run.merger = .draining (report :: left))
    (hqueue : (run.feeds report.feed).queue = entry :: queue) :
    run.ahead.flatMap run.rest = entry :: run.ahead.flatMap (rest { run with
      merger := .sending entry (report :: left)
      feeds := Function.update run.feeds report.feed { run.feeds report.feed with queue } }) := by
  have hnodup := h.nodup
  rw [ahead_of_draining hmerger, List.map_cons, List.nodup_cons] at hnodup
  rw [ahead_of_draining hmerger, List.map_cons, List.flatMap_cons, List.flatMap_cons,
    ← List.cons_append]
  -- The entry comes from the first shard ahead, and the others are left alone.
  congr 1
  · refine Feeding.rest_of_cons (hfeeding report.feed) hqueue ?_ ?_ ?_
    · rfl
    · simp only [Function.update_self]
    · rfl
  · refine List.flatMap_congr fun i hi => Eq.symm ?_
    have hne : i ≠ report.feed := fun heq => hnodup.1 (heq ▸ hi)
    refine rest_congr rfl ?_ rfl
    simp only [Function.update_of_ne hne]

/-- A channel that the merging worker is through with has nothing left. -/
theorem rest_advance (h : run.Flowing) (hfeeding : ∀ i, run.Feeding i)
    {report : Report n} {left : List (Report n)} (hmerger : run.merger = .draining (report :: left))
    (hqueue : (run.feeds report.feed).queue = [])
    (hsenders : (run.feeds report.feed).senders = 0) :
    run.ahead.flatMap run.rest = (left.map Report.feed).flatMap (rest { run with
      merger := .draining left
      feeds := Function.update run.feeds report.feed (run.feeds report.feed).dropReceiver }) := by
  have hnodup := h.nodup
  rw [ahead_of_draining hmerger, List.map_cons, List.nodup_cons] at hnodup
  rw [ahead_of_draining hmerger, List.map_cons, List.flatMap_cons,
    (hfeeding report.feed).rest_eq_nil hqueue hsenders, List.nil_append]
  refine List.flatMap_congr fun i hi => Eq.symm ?_
  have hne : i ≠ report.feed := fun heq => hnodup.1 (heq ▸ hi)
  refine rest_congr rfl ?_ rfl
  simp only [Function.update_of_ne hne]

/-- What a move upstream of the merging worker leaves as it is. -/
theorem upstream (h : run.Flowing) (hinstep : run.InStep)
    (hguarded : run.Guarded cells number) (hcollecting : run.Collecting)
    (hmove : Move cells number run cells' run') (hmerger : run'.merger = run.merger)
    (hreceiving : ∀ i, (run'.feeds i).receiving = (run.feeds i).receiving)
    (hdelivery : run'.delivery = run.delivery) (houtput : run'.output = run.output)
    (hconsumer : run'.consumer = run.consumer) (hreceived : run'.received = run.received)
    (hends : run'.ends = run.ends) : run'.Flowing := by
  have hahead : run'.ahead = run.ahead := by rw [ahead, ahead, hmerger]
  have hopened (i : Fin n) : (run'.feeds i).receiving = true ↔ i ∈ run'.ahead := by
    rw [hreceiving, hahead]
    exact h.opened i
  by_cases hpresent : run.merger = .absent
  · -- Before the merging worker everything that is captured has yet to be received.
    obtain ⟨hnothing, hempty, hzero⟩ := hinstep.fresh hpresent
    have hall := ahead_of_absent hpresent
    have hwhole (i : Fin n) : run'.rest i = run'.entries i := by
      refine rest_eq_entries_of_move hguarded hcollecting hmove hmerger ?_ (h.whole hpresent i)
      rw [h.opened, hall]
      exact List.mem_finRange i
    have hhand : run'.inHand = [] := by rw [inHand, hmerger, hpresent]
    refine ⟨by rw [hahead]; exact h.ordered, hopened, ?_, ?_, fun _ => hwhole, fun _ => ?_, ?_, ?_⟩
    · rw [hmerger]
      exact fun habsent => absurd hpresent habsent
    · rw [hmerger]
      exact fun habsent => absurd hpresent habsent
    · rw [hreceived, hnothing, houtput, hempty, hhand, hahead, hall, all]
      exact List.flatMap_congr fun i _ => hwhole i
    · rw [hreceived, hnothing]
      exact List.nil_prefix
    · rw [hends, hzero]
      exact fun hpos => absurd hpos (Nat.lt_irrefl 0)
  · -- Everything is captured.
    obtain ⟨total, hasker⟩ := hinstep.exists_returned hpresent
    have hlocked (i : Fin n) :=
      Worker.hasLocked_of_hasReported ((hcollecting.of_returned hasker).1 i)
    have hall : run'.all = run.all :=
      List.flatMap_congr fun i _ => entries_eq_of_move hguarded hmove (hlocked i)
    have hrest : run.ahead.flatMap run'.rest = run.ahead.flatMap run.rest :=
      List.flatMap_congr fun i hi => rest_eq_of_move hguarded hcollecting hmove hmerger (hlocked i)
        ((h.opened i).mpr hi)
    have hhand : run'.inHand = run.inHand := by rw [inHand, inHand, hmerger]
    constructor
    · rw [hahead]
      exact h.ordered
    · exact hopened
    · rw [hmerger, hdelivery, houtput, hall]
      exact h.buffered
    · rw [hmerger, hdelivery, houtput]
      exact h.handed
    · rw [hmerger]
      exact fun habsent => absurd habsent hpresent
    · rw [hconsumer, hreceived, houtput, hhand, hahead, hrest, hall]
      exact h.flow
    · rw [hreceived, hall]
      exact h.beginning
    · rw [hends, hreceived, hall]
      exact h.complete

/-- What a move of the merging worker or of the consumer changes. -/
theorem downstream (h : run.Flowing) (hbefore : run.merger ≠ .absent)
    (hafter : run'.merger ≠ .absent) (hdelivery : run'.delivery = run.delivery)
    (hcapacity : run'.output.capacity = run.output.capacity) (hall : run'.all = run.all)
    {shards : List (Fin n)} {hand : List (String × V)} (hahead : run'.ahead = shards)
    (hhand : run'.inHand = hand) (hordered : shards <:+ run.ahead)
    (hopened : ∀ i, (run'.feeds i).receiving = true ↔ i ∈ shards)
    (hflow : run'.consumer ≠ .gone →
      run'.received ++ run'.output.queue ++ hand ++ shards.flatMap run'.rest = run.all)
    (hbeginning : run'.received <+: run.all) (hcomplete : 0 < run'.ends → run'.received = run.all) :
    run'.Flowing where
  ordered := by rw [hahead]; exact hordered.trans h.ordered
  opened := by rw [hahead]; exact hopened
  buffered _ := by rw [hdelivery, hcapacity, hall]; exact h.buffered hbefore
  handed _ := by rw [hdelivery, hcapacity]; exact h.handed hbefore
  whole habsent := absurd habsent hafter
  flow := by rw [hall, hahead, hhand]; exact hflow
  beginning := by rw [hall]; exact hbeginning
  complete := by rw [hall]; exact hcomplete

/-- The asking thread hands all captured entries over. -/
theorem handOver (h : run.Flowing) (hinstep : run.InStep) (hcollecting : run.Collecting)
    {slots : List (Option (Report n))} (hasker : run.asker = .receiving n slots) :
    (run.handOver slots).Flowing := by
  have habsent := hinstep.merger_eq_absent (by simp [hasker])
  obtain ⟨hnothing, -, hzero⟩ := hinstep.fresh habsent
  obtain ⟨-, harrange⟩ := hcollecting.arrange_eq hasker
  have hbefore := ahead_of_absent habsent
  have hahead : (run.handOver slots).ahead = List.finRange n := by
    simp only [ahead, Traversal.handOver, harrange, List.map_map]
    exact List.map_id _
  have htotal : sumOf ((Report.arrange slots).map Report.size) = run.all.length := by
    rw [harrange]
    exact Collecting.sumOf_size run
  constructor
  · rw [hahead]
  · intro i
    rw [hahead, ← hbefore]
    exact h.opened i
  · intro _ hdelivery
    simp only [Traversal.handOver] at hdelivery ⊢
    rw [hdelivery]
    exact htotal
  · intro _ hdelivery
    simp only [Traversal.handOver] at hdelivery ⊢
    rw [hdelivery]
  · intro hmerger
    cases hmerger
  · intro _
    have hwhole : (List.finRange n).flatMap run.rest = run.all :=
      List.flatMap_congr fun i _ => h.whole habsent i
    rw [hahead]
    simp only [Traversal.handOver, inHand, hnothing, List.nil_append]
    exact hwhole
  · exact h.beginning
  · intro hends
    rw [show (run.handOver slots).ends = run.ends from rfl, hzero] at hends
    cases hends

/-- The merging worker takes an entry out of the first channel. -/
theorem receive (h : run.Flowing) (hfeeding : ∀ i, run.Feeding i)
    {report : Report n} {left : List (Report n)} {entry : String × V} {queue : List (String × V)}
    (hmerger : run.merger = .draining (report :: left))
    (hqueue : (run.feeds report.feed).queue = entry :: queue) :
    Flowing { run with
      merger := .sending entry (report :: left)
      feeds := Function.update run.feeds report.feed { run.feeds report.feed with queue } } := by
  have hahead := ahead_of_draining hmerger
  refine h.downstream (by rw [hmerger]; simp) (by simp) rfl rfl rfl (ahead_of_sending rfl)
    (inHand_of_sending rfl) (by rw [hahead]) (fun i => ?_) (fun hconsumer => ?_) h.beginning
    h.complete
  · have hi := h.opened i
    rw [hahead] at hi
    by_cases heq : i = report.feed
    · subst heq
      simpa only [Function.update_self] using hi
    · simpa only [Function.update_of_ne heq] using hi
  · have hflow := h.flow hconsumer
    rw [inHand_of_draining hmerger, h.rest_receive hfeeding hmerger hqueue, hahead,
      List.append_nil, List.append_cons] at hflow
    exact hflow

/-- It is through with the first channel. -/
theorem advance (h : run.Flowing) (hfeeding : ∀ i, run.Feeding i)
    {report : Report n} {left : List (Report n)} (hmerger : run.merger = .draining (report :: left))
    (hqueue : (run.feeds report.feed).queue = []) (hsenders : (run.feeds report.feed).senders = 0) :
    Flowing { run with
      merger := .draining left
      feeds := Function.update run.feeds report.feed (run.feeds report.feed).dropReceiver } := by
  have hahead := ahead_of_draining hmerger
  have hnodup := h.nodup
  rw [hahead, List.map_cons, List.nodup_cons] at hnodup
  refine h.downstream (by rw [hmerger]; simp) (by simp) rfl rfl rfl (ahead_of_draining rfl)
    (inHand_of_draining rfl) ?_ (fun i => ?_) (fun hconsumer => ?_) h.beginning h.complete
  · rw [hahead]
    exact List.suffix_cons _ _
  · have hi := h.opened i
    rw [hahead, List.map_cons, List.mem_cons] at hi
    by_cases heq : i = report.feed
    · -- It is not among the channels that are left, as none comes twice.
      subst heq
      simpa [Channel.dropReceiver] using hnodup.1
    · simpa only [Function.update_of_ne heq, heq, false_or] using hi
  · have hflow := h.flow hconsumer
    rw [inHand_of_draining hmerger,
      h.rest_advance hfeeding hmerger hqueue hsenders] at hflow
    exact hflow

/-- It sends the entry in its hand. -/
theorem forward (h : run.Flowing) {entry : String × V} {left : List (Report n)}
    (hmerger : run.merger = .sending entry left) :
    Flowing { run with
      merger := .draining left
      output := { run.output with queue := run.output.queue ++ [entry] } } := by
  have hahead := ahead_of_sending hmerger
  refine h.downstream (by rw [hmerger]; simp) (by simp) rfl rfl rfl (ahead_of_draining rfl)
    (inHand_of_draining rfl) (by rw [hahead]) (by rw [← hahead]; exact h.opened)
    (fun hconsumer => ?_) h.beginning h.complete
  have hflow := h.flow hconsumer
  rw [inHand_of_sending hmerger, hahead] at hflow
  rw [← hflow, List.append_nil, ← List.append_assoc]
  rfl

/-- An entry that the consumer gets is the next one of all. -/
theorem get (h : run.Flowing) {entry : String × V} {more : List (String × V)}
    (hflow : run.received ++ [entry] ++ more = run.all) :
    run.received ++ [entry] <+: run.all ∧ ¬0 < run.ends := by
  refine ⟨⟨more, hflow⟩, fun hends => ?_⟩
  rw [h.complete hends, List.append_assoc, List.append_right_eq_self] at hflow
  cases hflow

/-- It gives the entry in its hand to the consumer. -/
theorem give (h : run.Flowing) {entry : String × V} {left : List (Report n)}
    (hmerger : run.merger = .sending entry left) (hconsumer : run.consumer ≠ .gone)
    (hqueue : run.output.queue = []) :
    Flowing { run with
      merger := .draining left
      consumer := .idle
      received := run.received ++ [entry] } := by
  have hahead := ahead_of_sending hmerger
  have hflow := h.flow hconsumer
  rw [inHand_of_sending hmerger, hahead, hqueue, List.append_nil] at hflow
  obtain ⟨hbeginning, hends⟩ := h.get hflow
  refine h.downstream (by rw [hmerger]; simp) (by simp) rfl rfl rfl (ahead_of_draining rfl)
    (inHand_of_draining rfl) (by rw [hahead]) (by rw [← hahead]; exact h.opened) (fun _ => ?_)
    hbeginning fun hpos => absurd hpos hends
  rw [← hflow, hqueue, List.append_nil, List.append_nil]
  rfl

/-- The merging worker finds nobody to send to. -/
theorem abort (h : run.Flowing) {entry : String × V} {left : List (Report n)}
    (hmerger : run.merger = .sending entry left) (hconsumer : run.consumer = .gone) :
    Flowing { run with
      merger := .ended
      feeds := dropFeeds run.feeds left
      output := run.output.dropSender } := by
  refine h.downstream (by rw [hmerger]; simp) (by simp) rfl rfl rfl (ahead_of_ended rfl)
    (inHand_of_ended rfl) List.nil_suffix (fun i => ?_) (fun hpresent => absurd hconsumer hpresent)
    h.beginning h.complete
  have hi := h.opened i
  rw [ahead_of_sending hmerger] at hi
  simp only [dropFeeds]
  split
  · simp [Channel.dropReceiver]
  · next hnot =>
    rw [hi]
    simpa using hnot

/-- The merging worker has drained all channels. -/
theorem drained (h : run.Flowing) (hmerger : run.merger = .draining []) :
    Flowing { run with
      merger := .ended
      output := run.output.dropSender } := by
  have hahead := ahead_of_draining hmerger
  refine h.downstream (by rw [hmerger]; simp) (by simp) rfl rfl rfl (ahead_of_ended rfl)
    (inHand_of_ended rfl) List.nil_suffix (fun i => ?_) (fun hconsumer => ?_) h.beginning h.complete
  · rw [h.opened, hahead, List.map_nil]
  · have hflow := h.flow hconsumer
    rw [inHand_of_draining hmerger, hahead] at hflow
    exact hflow

/-- The consumer takes an entry in. -/
theorem take (h : run.Flowing) (hmerger : run.merger ≠ .absent) {entry : String × V}
    {queue : List (String × V)} (hconsumer : run.consumer ≠ .gone)
    (hqueue : run.output.queue = entry :: queue) :
    Flowing { run with
      consumer := .idle
      received := run.received ++ [entry]
      output := { run.output with queue } } := by
  have hflow := h.flow hconsumer
  rw [hqueue, List.append_cons] at hflow
  have hmore : run.received ++ [entry] ++ (queue ++ run.inHand ++ run.ahead.flatMap run.rest) =
      run.all := by
    rw [← hflow]
    simp only [List.append_assoc]
  obtain ⟨hbeginning, hends⟩ := h.get hmore
  exact h.downstream hmerger hmerger rfl rfl rfl rfl rfl List.suffix_rfl h.opened (fun _ => hflow)
    hbeginning fun hpos => absurd hpos hends

/-- The consumer learns that there are no more entries. -/
theorem learn (h : run.Flowing) (hmerger : run.merger = .ended) (hconsumer : run.consumer ≠ .gone)
    (hqueue : run.output.queue = []) :
    Flowing { run with
      consumer := .idle
      ends := run.ends + 1 } := by
  have hpresent : run.merger ≠ .absent := by rw [hmerger]; simp
  have hflow := h.flow hconsumer
  refine h.downstream hpresent hpresent rfl rfl rfl rfl rfl List.suffix_rfl h.opened
    (fun _ => hflow) h.beginning fun _ => ?_
  rw [inHand_of_ended hmerger, ahead_of_ended hmerger, hqueue, List.append_nil, List.append_nil,
    List.flatMap_nil, List.append_nil] at hflow
  exact hflow

/-- A move in a traversal leaves the entries on their way. -/
theorem move (h : run.Flowing) (hinstep : run.InStep) (hfeeding : ∀ i, run.Feeding i)
    (hguarded : run.Guarded cells number) (hcollecting : run.Collecting)
    (hmove : Move cells number run cells' run') : run'.Flowing := by
  have hall := h.upstream hinstep hguarded hcollecting hmove
  cases hmove with
  | handOver hasker => exact h.handOver hinstep hcollecting hasker
  | giveUp hasker hmore hqueue hsenders =>
    exact absurd hsenders (hcollecting.not_giveUp hasker hmore hqueue)
  | @report i hworker hopen hroom =>
    refine hall rfl (fun j => ?_) rfl rfl rfl rfl rfl
    by_cases hj : j = i
    · -- The channel it had before is as open as the one it makes.
      subst hj
      have hfeed := hfeeding j
      rw [Feeding, hworker] at hfeed
      simp only [Function.update_self]
      rw [hfeed]
    · simp only [Function.update_of_ne hj]
  | @send i sent entry hworker hentry hopen hroom =>
    refine hall rfl (fun j => ?_) rfl rfl rfl rfl rfl
    by_cases hj : j = i
    · subst hj
      simp only [Function.update_self]
    · simp only [Function.update_of_ne hj]
  | @close i sent hworker hwhy =>
    refine hall rfl (fun j => ?_) rfl rfl rfl rfl rfl
    by_cases hj : j = i
    · subst hj
      simp only [Function.update_self, Channel.dropSender]
    · simp only [Function.update_of_ne hj]
  | drained hmerger => exact h.drained hmerger
  | receive hmerger hqueue => exact h.receive hfeeding hmerger hqueue
  | advance hmerger hqueue hsenders => exact h.advance hfeeding hmerger hqueue hsenders
  | forward hmerger hopen hroom => exact h.forward hmerger
  | give hmerger hopen hcapacity hconsumer =>
    -- Without room nothing is queued, so what is in hand comes next.
    have hroom := hinstep.room
    rw [hcapacity] at hroom
    exact h.give hmerger (by simp [hconsumer])
      (List.eq_nil_of_length_eq_zero (Nat.eq_zero_of_le_zero hroom))
  | abort hmerger hclosed => exact h.abort hmerger (hinstep.listening.mp hclosed)
  | ask hconsumer =>
    have hpresent := hinstep.merger_ne_absent (by rw [hconsumer]; simp)
    exact h.downstream hpresent hpresent rfl rfl rfl rfl rfl List.suffix_rfl h.opened
      (fun _ => h.flow (by simp [hconsumer])) h.beginning h.complete
  | take hconsumer hqueue =>
    have hpresent := hinstep.merger_ne_absent (by rw [hconsumer]; simp)
    exact h.take hpresent (by simp [hconsumer]) hqueue
  | learn hconsumer hqueue hsenders =>
    -- The only sender of the output is the merging worker.
    have hended : run.merger = .ended := by
      rw [hinstep.senders] at hsenders
      cases hmerger : run.merger <;> rw [hmerger] at hsenders <;> first | rfl | cases hsenders
    exact h.learn hended (by simp [hconsumer]) hqueue
  | leave hconsumer =>
    -- What is queued is lost, but nobody waits for it any more.
    have hpresent := hinstep.merger_ne_absent (by rw [hconsumer]; simp)
    exact h.downstream hpresent hpresent rfl rfl rfl rfl rfl List.suffix_rfl h.opened
      (fun hgone => absurd rfl hgone) h.beginning h.complete
  | _ => exact hall rfl (fun _ => rfl) rfl rfl rfl rfl rfl

end Flowing

end Traversal

end ShardStore
