import ShardStore.Proofs.Traversals.Collecting

/-!
# The channels of the workers

A worker's channel has room for all entries of its shard, so what is in it and what the worker has
yet to send fit in together (`Traversal.Feeding`). `Traversal.rest` puts the two one after another:
a worker may go on as it likes, the entries that have yet to be received from it stay the same
(`Traversal.rest_eq_of_move`).
-/

namespace ShardStore

/-- Where a worker goes from a stage. -/
inductive Worker.Next : Worker → Worker → Prop where
  | start : Next .absent .started
  | lock : Next .started .locked
  | report : Next .locked (.copying 0)
  | send (sent : Nat) : Next (.copying sent) (.copying (sent + 1))
  | close (sent : Nat) : Next (.copying sent) .closed
  | unlock : Next .closed .ended

/-- A worker reports after it has taken its lock. -/
theorem Worker.Next.hasLocked {before after : Worker} (h : before.Next after)
    (hreported : after.hasReported = true) : before.hasLocked = true := by
  cases h with
  | start => cases hreported
  | lock => cases hreported
  | _ => rfl

theorem Worker.hasLocked_of_hasReported {worker : Worker} (h : worker.hasReported = true) :
    worker.hasLocked = true := by
  cases worker <;> first | rfl | cases h

namespace Traversal

variable {n : Nat} {V : Type} {cells cells' : Cells n V} {number : Nat} {run run' : Traversal n V}

/-- A worker stays at its stage or goes on to the next. -/
theorem Move.worker_next (hmove : Move cells number run cells' run')
    (hcollecting : run.Collecting) (j : Fin n) :
    run'.workers j = run.workers j ∨ (run.workers j).Next (run'.workers j) := by
  have hupdate {i : Fin n} {worker : Worker} (hnext : (run.workers i).Next worker)
      (hworkers : run'.workers = Function.update run.workers i worker) :
      run'.workers j = run.workers j ∨ (run.workers j).Next (run'.workers j) := by
    rw [hworkers]
    by_cases hj : j = i
    · subst hj
      rw [Function.update_self]
      exact .inr hnext
    · exact .inl (Function.update_of_ne hj _ _)
  cases hmove with
  | @start next hasker hlt =>
    refine hupdate ?_ rfl
    rw [hcollecting.absent_of_starting next hlt hasker]
    exact .start
  | lock hworker hgrants => exact hupdate (hworker ▸ .lock) rfl
  | report hworker hopen hroom => exact hupdate (hworker ▸ .report) rfl
  | withhold hworker hclosed => exact absurd hclosed (hcollecting.not_withhold hworker)
  | send hworker hentry hopen hroom => exact hupdate (hworker ▸ .send _) rfl
  | close hworker hwhy => exact hupdate (hworker ▸ .close _) rfl
  | unlock hworker => exact hupdate (hworker ▸ .unlock) rfl
  | _ => exact .inl rfl

/-- What a worker's stage says about its channel. -/
def Feeding (run : Traversal n V) (i : Fin n) : Prop :=
  match run.workers i with
  | .copying sent => (run.feeds i).senders = 1 ∧
    (run.feeds i).capacity = (run.entries i).length ∧
    (run.feeds i).queue.length ≤ sent ∧ sent ≤ (run.entries i).length
  | .closed => (run.feeds i).senders = 0
  | .ended => (run.feeds i).senders = 0
  | _ => run.feeds i = { capacity := 0 }

/-- The entries of a shard that the merging worker has not received. -/
def rest (run : Traversal n V) (i : Fin n) : List (String × V) :=
  match run.workers i with
  | .copying sent => (run.feeds i).queue ++ (run.entries i).drop sent
  | .closed => (run.feeds i).queue
  | .ended => (run.feeds i).queue
  | _ => run.entries i

/-! ## What a channel holds -/

namespace Feeding

variable {i : Fin n}

theorem congr (h : run.Feeding i) (hworker : run'.workers i = run.workers i)
    (hfeed : run'.feeds i = run.feeds i) (hcaptured : run'.captured i = run.captured i) :
    run'.Feeding i := by
  unfold Feeding entries at h ⊢
  rw [hworker, hfeed, hcaptured]
  exact h

/-- Receiving and closing the receiving end leave a channel with no more in it and as many
senders. -/
theorem shrink (h : run.Feeding i) (hreported : (run.workers i).hasReported = true)
    (hworker : run'.workers i = run.workers i) (hcaptured : run'.captured i = run.captured i)
    (hsenders : (run'.feeds i).senders = (run.feeds i).senders)
    (hcapacity : (run'.feeds i).capacity = (run.feeds i).capacity)
    (hqueue : (run'.feeds i).queue.length ≤ (run.feeds i).queue.length) : run'.Feeding i := by
  unfold Feeding entries at h ⊢
  rw [hworker, hcaptured, hsenders, hcapacity]
  cases hcase : run.workers i with
  | copying sent =>
    rw [hcase] at h
    exact ⟨h.1, h.2.1, hqueue.trans h.2.2.1, h.2.2.2⟩
  | closed => rw [hcase] at h; exact h
  | ended => rw [hcase] at h; exact h
  | _ => rw [hcase] at hreported; cases hreported

theorem dropFeeds (h : run.Feeding i) (hreported : (run.workers i).hasReported = true)
    (left : List (Report n)) (hworker : run'.workers i = run.workers i)
    (hcaptured : run'.captured i = run.captured i)
    (hfeeds : run'.feeds = Traversal.dropFeeds run.feeds left) : run'.Feeding i := by
  refine h.shrink hreported hworker hcaptured ?_ ?_ ?_
  · rw [hfeeds, Traversal.dropFeeds]
    split <;> rfl
  · rw [hfeeds, Traversal.dropFeeds]
    split <;> rfl
  · rw [hfeeds, Traversal.dropFeeds]
    split
    · exact Nat.zero_le _
    · exact Nat.le_refl _

/-- A worker whose channel holds entries has reported. -/
theorem hasReported_of_cons (h : run.Feeding i) {entry : String × V} {queue : List (String × V)}
    (hqueue : (run.feeds i).queue = entry :: queue) : (run.workers i).hasReported = true := by
  unfold Feeding at h
  cases hcase : run.workers i with
  | copying sent => rfl
  | closed => rfl
  | ended => rfl
  | _ => rw [hcase] at h; rw [h] at hqueue; cases hqueue

/-- A worker whose channel has no sender any more has closed it. -/
theorem isClosed_of_senders (h : run.Feeding i) (hsenders : (run.feeds i).senders = 0) :
    run.workers i = .closed ∨ run.workers i = .ended := by
  unfold Feeding at h
  cases hcase : run.workers i with
  | copying sent => rw [hcase] at h; rw [h.1] at hsenders; cases hsenders
  | closed => exact .inl rfl
  | ended => exact .inr rfl
  | _ => rw [hcase] at h; rw [h] at hsenders; cases hsenders

end Feeding

/-- A move leaves every worker's channel as its stage says. -/
theorem Feeding.move (h : ∀ i, run.Feeding i) (hguarded : run.Guarded cells number)
    (hcollecting : run.Collecting)
    (hmerging : run.merger ≠ .absent → ∀ i, (run.workers i).hasReported = true)
    (hmove : Move cells number run cells' run') (j : Fin n) : run'.Feeding j := by
  have hj := h j
  cases hmove with
  | @start next hasker hlt =>
    by_cases hji : j = ⟨next, hlt⟩
    · subst hji
      have habsent := hcollecting.absent_of_starting next hlt hasker
      simp only [Feeding, habsent, Function.update_self] at hj ⊢
      exact hj
    · exact hj.congr (Function.update_of_ne hji _ _) rfl rfl
  | giveUp hasker hmore hqueue hsenders =>
    exact absurd hsenders (hcollecting.not_giveUp hasker hmore hqueue)
  | @lock i hworker hgrants =>
    by_cases hji : j = i
    · subst hji
      simp only [Feeding, hworker, Function.update_self] at hj ⊢
      exact hj
    · exact hj.congr (Function.update_of_ne hji _ _) rfl (Function.update_of_ne hji _ _)
  | @report i hworker hopen hroom =>
    by_cases hji : j = i
    · subst hji
      have hsize := hguarded.size_eq (i := j) (by rw [hworker]; rfl)
      simp only [Feeding, Function.update_self]
      exact ⟨trivial, hsize, Nat.zero_le _, Nat.zero_le _⟩
    · exact hj.congr (Function.update_of_ne hji _ _) (Function.update_of_ne hji _ _) rfl
  | withhold hworker hclosed => exact absurd hclosed (hcollecting.not_withhold hworker)
  | @send i sent entry hworker hentry hopen hroom =>
    by_cases hji : j = i
    · -- The worker reads its table anew, and finds what it has captured.
      subst hji
      rw [hguarded.toList_eq (by rw [hworker]; rfl)] at hentry
      obtain ⟨hlt, -⟩ := List.getElem?_eq_some_iff.mp hentry
      simp only [Feeding, hworker, Function.update_self] at hj ⊢
      obtain ⟨hsenders, hcapacity, hlength, hsent⟩ := hj
      refine ⟨hsenders, hcapacity, ?_, hlt⟩
      rw [List.length_append, List.length_singleton]
      omega
    · exact hj.congr (Function.update_of_ne hji _ _) (Function.update_of_ne hji _ _) rfl
  | @close i sent hworker hwhy =>
    by_cases hji : j = i
    · subst hji
      simp only [Feeding, hworker, Function.update_self, Channel.dropSender] at hj ⊢
      omega
    · exact hj.congr (Function.update_of_ne hji _ _) (Function.update_of_ne hji _ _) rfl
  | @unlock i hworker =>
    by_cases hji : j = i
    · subst hji
      simp only [Feeding, hworker, Function.update_self] at hj ⊢
      exact hj
    · exact hj.congr (Function.update_of_ne hji _ _) rfl rfl
  | @receive report left entry queue hmerger hqueue =>
    by_cases hji : j = report.feed
    · subst hji
      refine hj.shrink (hj.hasReported_of_cons hqueue) rfl rfl ?_ ?_ ?_
      · simp only [Function.update_self]
      · simp only [Function.update_self]
      · simp only [Function.update_self, hqueue, List.length_cons]
        omega
    · exact hj.congr rfl (Function.update_of_ne hji _ _) rfl
  | @advance report left hmerger hqueue hsenders =>
    by_cases hji : j = report.feed
    · subst hji
      have hreported : (run.workers report.feed).hasReported = true := by
        rcases hj.isClosed_of_senders hsenders with hworker | hworker <;> rw [hworker] <;> rfl
      refine hj.shrink hreported rfl rfl ?_ ?_ ?_ <;>
        simp [Channel.dropReceiver]
    · exact hj.congr rfl (Function.update_of_ne hji _ _) rfl
  | abort hmerger hclosed =>
    exact hj.dropFeeds (hmerging (by rw [hmerger]; simp) j) _ rfl rfl rfl
  | _ => exact hj.congr rfl rfl rfl

/-! ## What has yet to be received -/

theorem rest_congr {i : Fin n} (hworker : run'.workers i = run.workers i)
    (hfeed : (run'.feeds i).queue = (run.feeds i).queue)
    (hcaptured : run'.captured i = run.captured i) : run'.rest i = run.rest i := by
  unfold rest entries
  rw [hworker, hfeed, hcaptured]

/-- Receiving takes the first entry that has yet to be received. -/
theorem Feeding.rest_of_cons {i : Fin n} (h : run.Feeding i) {entry : String × V}
    {queue : List (String × V)} (hqueue : (run.feeds i).queue = entry :: queue)
    (hworker : run'.workers i = run.workers i) (hfeed : (run'.feeds i).queue = queue)
    (hcaptured : run'.captured i = run.captured i) : run.rest i = entry :: run'.rest i := by
  have hreported := h.hasReported_of_cons hqueue
  unfold rest entries
  rw [hworker, hfeed, hcaptured, hqueue]
  cases hcase : run.workers i with
  | copying sent => rfl
  | closed => rfl
  | ended => rfl
  | _ => rw [hcase] at hreported; cases hreported

/-- From a channel that has ended nothing has yet to be received. -/
theorem Feeding.rest_eq_nil {i : Fin n} (h : run.Feeding i) (hqueue : (run.feeds i).queue = [])
    (hsenders : (run.feeds i).senders = 0) : run.rest i = [] := by
  unfold rest
  rcases h.isClosed_of_senders hsenders with hworker | hworker <;> rw [hworker] <;> exact hqueue

/-- Before a worker has reported, all entries of its shard have yet to be received. -/
theorem rest_of_not_hasReported {i : Fin n} (h : (run.workers i).hasReported = false) :
    run.rest i = run.entries i := by
  unfold rest
  cases hworker : run.workers i with
  | copying sent => rw [hworker] at h; cases h
  | closed => rw [hworker] at h; cases h
  | ended => rw [hworker] at h; cases h
  | _ => rfl

/-- As long as a worker's channel is received from, only receiving changes what has yet to be
received. -/
theorem rest_eq_of_move (hguarded : run.Guarded cells number) (hcollecting : run.Collecting)
    (hmove : Move cells number run cells' run') (hmerger : run'.merger = run.merger) {j : Fin n}
    (hlocked : (run.workers j).hasLocked = true) (hopen : (run.feeds j).receiving = true) :
    run'.rest j = run.rest j := by
  cases hmove with
  | @start next hasker hlt =>
    refine rest_congr (Function.update_of_ne ?_ _ _) rfl rfl
    rintro rfl
    rw [hcollecting.absent_of_starting next hlt hasker] at hlocked
    cases hlocked
  | giveUp hasker hmore hqueue hsenders =>
    exact absurd hsenders (hcollecting.not_giveUp hasker hmore hqueue)
  | @lock i hworker hgrants =>
    have hji : j ≠ i := by
      rintro rfl
      rw [hworker] at hlocked
      cases hlocked
    exact rest_congr (Function.update_of_ne hji _ _) rfl (Function.update_of_ne hji _ _)
  | @report i hworker hopen hroom =>
    by_cases hji : j = i
    · subst hji
      simp only [rest, hworker, Function.update_self]
      rfl
    · exact rest_congr (Function.update_of_ne hji _ _) (by simp [hji]) rfl
  | withhold hworker hclosed => exact absurd hclosed (hcollecting.not_withhold hworker)
  | @send i sent entry hworker hentry hopen hroom =>
    by_cases hji : j = i
    · -- The entry goes from the end of what is to be sent to the end of the channel.
      subst hji
      rw [hguarded.toList_eq (by rw [hworker]; rfl)] at hentry
      obtain ⟨hlt, hget⟩ := List.getElem?_eq_some_iff.mp hentry
      simp only [rest, hworker, Function.update_self, List.append_assoc, List.singleton_append]
      rw [List.drop_eq_getElem_cons hlt, hget]
      rfl
    · exact rest_congr (Function.update_of_ne hji _ _) (by simp [hji]) rfl
  | @close i sent hworker hwhy =>
    by_cases hji : j = i
    · -- It closes an open channel only when it has sent everything.
      subst hji
      rcases hwhy with hnone | hclosed
      · rw [hguarded.toList_eq (by rw [hworker]; rfl), List.getElem?_eq_none_iff] at hnone
        simp only [rest, hworker, Function.update_self, Channel.dropSender]
        rw [List.drop_eq_nil_of_le hnone, List.append_nil]
      · rw [hopen] at hclosed
        cases hclosed
    · exact rest_congr (Function.update_of_ne hji _ _) (by simp [hji]) rfl
  | @unlock i hworker =>
    by_cases hji : j = i
    · subst hji
      simp only [rest, hworker, Function.update_self]
    · exact rest_congr (Function.update_of_ne hji _ _) rfl rfl
  | receive hm hqueue => rw [hm] at hmerger; cases hmerger
  | advance hm hqueue hsenders => rw [hm] at hmerger; simp at hmerger
  | abort hm hclosed => rw [hm] at hmerger; cases hmerger
  | _ => exact rest_congr rfl rfl rfl

/-- What was captured changes only where a worker takes its lock. -/
theorem entries_eq_of_move (hguarded : run.Guarded cells number)
    (hmove : Move cells number run cells' run') {j : Fin n}
    (hlocked : (run.workers j).hasLocked = true) : run'.entries j = run.entries j := by
  rw [← hguarded.captured j, Option.isSome_iff_exists] at hlocked
  obtain ⟨table, htable⟩ := hlocked
  rw [entries, entries, hguarded.captured_eq hmove htable, htable]

/-- While nobody merges, everything that is captured has yet to be received. -/
theorem rest_eq_entries_of_move (hguarded : run.Guarded cells number)
    (hcollecting : run.Collecting) (hmove : Move cells number run cells' run')
    (hmerger : run'.merger = run.merger) {j : Fin n} (hopen : (run.feeds j).receiving = true)
    (h : run.rest j = run.entries j) : run'.rest j = run'.entries j := by
  cases hlocked : (run.workers j).hasLocked with
  | true =>
    rw [rest_eq_of_move hguarded hcollecting hmove hmerger hlocked hopen, h,
      entries_eq_of_move hguarded hmove hlocked]
  | false =>
    -- Such a worker has not reported after the move either.
    refine rest_of_not_hasReported ?_
    rw [← Bool.not_eq_true] at hlocked ⊢
    intro hreported
    rcases hmove.worker_next hcollecting j with hsame | hnext
    · rw [hsame] at hreported
      exact hlocked (Worker.hasLocked_of_hasReported hreported)
    · exact hlocked (hnext.hasLocked hreported)

end Traversal

end ShardStore
