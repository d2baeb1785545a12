import ShardStore.Concurrent.Traversal

/-!
# What can happen in a traversal

`Traversal.Move` lists everything that an actor of a traversal can do, with what must be so before
and what is so after. Every step is one of these moves (`Traversal.move_of_step?`), so a statement
about all steps is a case for each move, and mostly few of them touch what the statement is about.
-/

namespace ShardStore

namespace Traversal

variable {n : Nat} {V : Type}

/-- The moves in the traversal number `number`, with the shards and the traversal that they lead
to. -/
inductive Move (cells : Cells n V) (number : Nat) (run : Traversal n V) :
    Cells n V → Traversal n V → Prop where
  /-- The asking thread starts one more worker. -/
  | start {next : Nat} (hasker : run.asker = .starting next) (h : next < n) :
      Move cells number run cells { run with
        asker := .starting (next + 1)
        workers := Function.update run.workers ⟨next, h⟩ .started
        reports := run.reports.addSender }
  /-- It has started all workers. -/
  | listen {next : Nat} (hasker : run.asker = .starting next) (h : ¬next < n) :
      Move cells number run cells { run with
        asker := .receiving 0 (List.replicate n none)
        reports := run.reports.dropSender }
  /-- It has all reports. -/
  | handOver {slots : List (Option (Report n))} (hasker : run.asker = .receiving n slots) :
      Move cells number run cells (run.handOver slots)
  /-- It takes a report in. -/
  | note {reported : Nat} {slots : List (Option (Report n))} {report : Report n}
      {queue : List (Report n)} (hasker : run.asker = .receiving reported slots)
      (hmore : reported ≠ n) (hqueue : run.reports.queue = report :: queue) :
      Move cells number run cells { run with
        asker := .receiving (reported + 1) (Report.place slots report)
        reports := { run.reports with queue } }
  /-- It gives up, as no report can come any more. -/
  | giveUp {reported : Nat} {slots : List (Option (Report n))}
      (hasker : run.asker = .receiving reported slots) (hmore : reported ≠ n)
      (hqueue : run.reports.queue = []) (hsenders : run.reports.senders = 0) :
      Move cells number run cells { run with
        asker := .interrupted reported
        reports := run.reports.dropReceiver
        feeds := dropFeeds run.feeds (Report.arrange slots) }
  /-- A worker takes its lock. -/
  | lock {i : Fin n} (hworker : run.workers i = .started)
      (hgrants : (cells i).lock.grants .shared = true) :
      Move cells number run
        (Function.update cells i
          { cells i with lock := (cells i).lock.take (.worker number i) .shared })
        { run with
          workers := Function.update run.workers i .locked
          captured := Function.update run.captured i (some (cells i).table) }
  /-- A worker reports. -/
  | report {i : Fin n} (hworker : run.workers i = .locked)
      (hopen : run.reports.receiving = true)
      (hroom : run.reports.queue.length < run.reports.capacity) :
      Move cells number run cells { run with
        workers := Function.update run.workers i (.copying 0)
        feeds := Function.update run.feeds i { capacity := (cells i).table.size }
        reports := { run.reports with
          queue := run.reports.queue ++ [{ index := i, size := (cells i).table.size, feed := i }]
          senders := run.reports.senders - 1 } }
  /-- A worker finds nobody to report to. -/
  | withhold {i : Fin n} (hworker : run.workers i = .locked)
      (hclosed : run.reports.receiving = false) :
      Move cells number run cells { run with
        workers := Function.update run.workers i .closed
        reports := run.reports.dropSender }
  /-- A worker sends an entry. -/
  | send {i : Fin n} {sent : Nat} {entry : String × V} (hworker : run.workers i = .copying sent)
      (hentry : (cells i).table.toList[sent]? = some entry)
      (hopen : (run.feeds i).receiving = true)
      (hroom : (run.feeds i).queue.length < (run.feeds i).capacity) :
      Move cells number run cells { run with
        workers := Function.update run.workers i (.copying (sent + 1))
        feeds := Function.update run.feeds i
          { run.feeds i with queue := (run.feeds i).queue ++ [entry] } }
  /-- A worker has sent all entries, or finds nobody to send them to. -/
  | close {i : Fin n} {sent : Nat} (hworker : run.workers i = .copying sent)
      (hwhy : (cells i).table.toList[sent]? = none ∨ (run.feeds i).receiving = false) :
      Move cells number run cells { run with
        workers := Function.update run.workers i .closed
        feeds := Function.update run.feeds i (run.feeds i).dropSender }
  /-- A worker gives its lock back. -/
  | unlock {i : Fin n} (hworker : run.workers i = .closed) :
      Move cells number run (cells.release (.worker number i) i .shared)
        { run with workers := Function.update run.workers i .ended }
  /-- The merging worker has drained all channels. -/
  | drained (hmerger : run.merger = .draining []) :
      Move cells number run cells { run with
        merger := .ended
        output := run.output.dropSender }
  /-- It takes an entry out of the first channel. -/
  | receive {report : Report n} {left : List (Report n)} {entry : String × V}
      {queue : List (String × V)} (hmerger : run.merger = .draining (report :: left))
      (hqueue : (run.feeds report.feed).queue = entry :: queue) :
      Move cells number run cells { run with
        merger := .sending entry (report :: left)
        feeds := Function.update run.feeds report.feed { run.feeds report.feed with queue } }
  /-- It is through with the first channel. -/
  | advance {report : Report n} {left : List (Report n)}
      (hmerger : run.merger = .draining (report :: left))
      (hqueue : (run.feeds report.feed).queue = [])
      (hsenders : (run.feeds report.feed).senders = 0) :
      Move cells number run cells { run with
        merger := .draining left
        feeds := Function.update run.feeds report.feed (run.feeds report.feed).dropReceiver }
  /-- It sends the entry in its hand. -/
  | forward {entry : String × V} {left : List (Report n)}
      (hmerger : run.merger = .sending entry left) (hopen : run.output.receiving = true)
      (hroom : run.output.queue.length < run.output.capacity) :
      Move cells number run cells { run with
        merger := .draining left
        output := { run.output with queue := run.output.queue ++ [entry] } }
  /-- It gives the entry in its hand to the waiting consumer. -/
  | give {entry : String × V} {left : List (Report n)}
      (hmerger : run.merger = .sending entry left) (hopen : run.output.receiving = true)
      (hcapacity : run.output.capacity = 0) (hconsumer : run.consumer = .waiting) :
      Move cells number run cells { run with
        merger := .draining left
        consumer := .idle
        received := run.received ++ [entry] }
  /-- It finds nobody to send to. -/
  | abort {entry : String × V} {left : List (Report n)}
      (hmerger : run.merger = .sending entry left) (hclosed : run.output.receiving = false) :
      Move cells number run cells { run with
        merger := .ended
        feeds := dropFeeds run.feeds left
        output := run.output.dropSender }
  /-- The consumer asks for an entry. -/
  | ask (hconsumer : run.consumer = .idle) :
      Move cells number run cells { run with consumer := .waiting }
  /-- The consumer takes an entry. -/
  | take {entry : String × V} {queue : List (String × V)} (hconsumer : run.consumer = .waiting)
      (hqueue : run.output.queue = entry :: queue) :
      Move cells number run cells { run with
        consumer := .idle
        received := run.received ++ [entry]
        output := { run.output with queue } }
  /-- The consumer learns that there are no more entries. -/
  | learn (hconsumer : run.consumer = .waiting) (hqueue : run.output.queue = [])
      (hsenders : run.output.senders = 0) :
      Move cells number run cells { run with
        consumer := .idle
        ends := run.ends + 1 }
  /-- The consumer drops the snapshot. -/
  | leave (hconsumer : run.consumer = .idle) :
      Move cells number run cells { run with
        consumer := .gone
        output := run.output.dropReceiver }

variable {cells cells' : Cells n V} {number : Nat} {run run' : Traversal n V}

theorem move_of_stepAsker (h : run.stepAsker = some run') : Move cells number run cells run' := by
  unfold stepAsker at h
  split at h
  · next next hasker =>
    split at h
    · next hlt => cases h; exact .start hasker hlt
    · next hlt => cases h; exact .listen hasker hlt
  · next reported slots hasker =>
    split at h
    · next hall => cases h; exact .handOver (hall ▸ hasker)
    · next hmore =>
      split at h
      · next report reports hreceive =>
        cases h
        obtain ⟨queue, hqueue, rfl⟩ := Channel.receive_eq_item_iff.mp hreceive
        exact .note hasker hmore hqueue
      · next hreceive =>
        cases h
        obtain ⟨hqueue, hsenders⟩ := Channel.receive_eq_ended_iff.mp hreceive
        exact .giveUp hasker hmore hqueue hsenders
      · cases h
  · cases h
  · cases h

theorem move_of_stepWorker {i : Fin n}
    (h : run.stepWorker cells number i = some (cells', run')) :
    Move cells number run cells' run' := by
  unfold stepWorker at h
  dsimp only at h
  split at h
  · cases h
  · next hworker =>
    rw [Option.map_eq_some_iff] at h
    obtain ⟨locked, htake, heq⟩ := h
    unfold Cells.take? at htake
    split at htake
    · next hgrants =>
      cases htake
      cases heq
      rw [Function.update_self]
      exact .lock hworker hgrants
    · cases htake
  · next hworker =>
    split at h
    · next reports hsend =>
      cases h
      obtain ⟨hopen, hroom, rfl⟩ := Channel.send_eq_queued_iff.mp hsend
      exact .report hworker hopen hroom
    · next hsend =>
      cases h
      exact .withhold hworker (Channel.send_eq_refused_iff.mp hsend)
    · cases h
  · next sent hworker =>
    split at h
    · next entry hentry =>
      split at h
      · next channel hsend =>
        cases h
        obtain ⟨hopen, hroom, rfl⟩ := Channel.send_eq_queued_iff.mp hsend
        exact .send hworker hentry hopen hroom
      · next hsend =>
        cases h
        exact .close hworker (.inr (Channel.send_eq_refused_iff.mp hsend))
      · cases h
    · next hnone =>
      cases h
      exact .close hworker (.inl hnone)
  · next hworker => cases h; exact .unlock hworker
  · cases h

theorem move_of_stepMerger (h : run.stepMerger = some run') : Move cells number run cells run' := by
  unfold stepMerger at h
  split at h
  · cases h
  · next hmerger => cases h; exact .drained hmerger
  · next report left hmerger =>
    split at h
    · next entry channel hreceive =>
      cases h
      obtain ⟨queue, hqueue, rfl⟩ := Channel.receive_eq_item_iff.mp hreceive
      exact .receive hmerger hqueue
    · next hreceive =>
      cases h
      obtain ⟨hqueue, hsenders⟩ := Channel.receive_eq_ended_iff.mp hreceive
      exact .advance hmerger hqueue hsenders
    · cases h
  · next entry left hmerger =>
    split at h
    · next output hsend =>
      cases h
      obtain ⟨hopen, hroom, rfl⟩ := Channel.send_eq_queued_iff.mp hsend
      exact .forward hmerger hopen hroom
    · next hsend =>
      cases h
      exact .abort hmerger (Channel.send_eq_refused_iff.mp hsend)
    · next hsend =>
      split at h
      · next hgive =>
        cases h
        exact .give hmerger (Channel.send_eq_waits_iff.mp hsend).1 hgive.1 hgive.2
      · cases h
  · cases h

theorem move_of_stepTake (h : run.stepTake = some run') : Move cells number run cells run' := by
  unfold stepTake at h
  split at h
  · next hconsumer =>
    split at h
    · next entry output hreceive =>
      cases h
      obtain ⟨queue, hqueue, rfl⟩ := Channel.receive_eq_item_iff.mp hreceive
      exact .take hconsumer hqueue
    · next hreceive =>
      cases h
      obtain ⟨hqueue, hsenders⟩ := Channel.receive_eq_ended_iff.mp hreceive
      exact .learn hconsumer hqueue hsenders
    · cases h
  · cases h

/-- Every step of a traversal is one of the moves. -/
theorem move_of_step? {actor : Actor n} (h : run.step? cells number actor = some (cells', run')) :
    Move cells number run cells' run' := by
  -- All but the workers leave the shards alone.
  have hlift {step : Option (Traversal n V)}
      (hmove : ∀ run', step = some run' → Move cells number run cells run')
      (hstep : step.map (cells, ·) = some (cells', run')) : Move cells number run cells' run' := by
    obtain ⟨after, hafter, heq⟩ := Option.map_eq_some_iff.mp hstep
    cases heq
    exact hmove _ hafter
  cases actor with
  | asker => exact hlift (fun _ => move_of_stepAsker) h
  | worker i => exact move_of_stepWorker h
  | merger => exact hlift (fun _ => move_of_stepMerger) h
  | ask =>
    refine hlift (fun after hafter => ?_) h
    rw [stepAsk] at hafter
    split at hafter
    · next hconsumer => cases hafter; exact .ask hconsumer
    · cases hafter
  | take => exact hlift (fun _ => move_of_stepTake) h
  | leave =>
    refine hlift (fun after hafter => ?_) h
    rw [stepLeave] at hafter
    split at hafter
    · next hconsumer => cases hafter; exact .leave hconsumer
    · cases hafter

end Traversal

end ShardStore
