import Mathlib.Algebra.BigOperators.Fin
import Mathlib.Algebra.Order.BigOperators.Group.Finset
import Mathlib.Data.Multiset.AddSub
import ShardStore.Concurrent.KeyCollection
import ShardStore.Proofs.Traversals.Capture

/-!
# What a collection of keys has and has not yet

Keys come in in any order, so what is known of them is a matter of multisets. At every moment the
keys that were read, together with those in the channel, are the keys that the workers have sent
(`KeyCollection.Coherent.exchanged`), each worker the first ones of those it captured. The collecting
thread ends its reading only when all senders are gone, and then every worker has sent all of its
keys (`KeyCollection.Coherent.perm_of_returned`). The room of the channel plays no part in this.

## Shape of the argument

`KeyCollection.Move` lists what an actor can do, and `KeyCollection.Coherent` is kept by each of
these moves.
-/

namespace ShardStore

/-- Two families that differ at one index have sums that differ by what they have there. -/
theorem sum_add_of_agree {n : Nat} {M : Type} [AddCommMonoid M] {f g : Fin n → M} (i : Fin n)
    (h : ∀ j, j ≠ i → f j = g j) : ∑ j, f j + g i = ∑ j, g j + f i := by
  have hrest : ∑ j ∈ Finset.univ.erase i, f j = ∑ j ∈ Finset.univ.erase i, g j :=
    Finset.sum_congr rfl fun j hj => h j (Finset.ne_of_mem_erase hj)
  rw [← Finset.add_sum_erase _ f (Finset.mem_univ i), ← Finset.add_sum_erase _ g (Finset.mem_univ i),
    hrest, add_right_comm, add_comm (f i), add_right_comm]

/-- How many senders of the channel belong to a worker. -/
def KeyWorker.senders : KeyWorker → Nat
  | .absent => 0
  | .ended => 0
  | _ => 1

/-- Whether a worker has taken its lock, and may have given it back. -/
def KeyWorker.hasLocked : KeyWorker → Bool
  | .absent => false
  | .started => false
  | _ => true

/-- How many senders of the channel belong to the collecting thread. -/
def Collector.senders : Collector → Nat
  | .starting _ => 1
  | _ => 0

namespace KeyCollection

variable {n : Nat} {V : Type} {state state' : KeyCollection n V} {i : Fin n}

/-- The keys captured from a shard, none before its worker has taken the lock. -/
def capturedKeys (state : KeyCollection n V) (i : Fin n) : List String :=
  (state.captured i).getD []

/-- The keys that the worker of a shard has sent. -/
def sentBy (state : KeyCollection n V) (i : Fin n) : List String :=
  match state.workers i with
  | .sending sent => (state.capturedKeys i).take sent
  | .released => state.capturedKeys i
  | .ended => state.capturedKeys i
  | _ => []

/-- What the collecting thread and the workers can do, with the state that it leads to. -/
inductive Move (state : KeyCollection n V) : KeyCollection n V → Prop where
  /-- The collecting thread starts one more worker. -/
  | start {next : Nat} (hcollector : state.collector = .starting next) (h : next < n) :
      Move state { state with
        collector := .starting (next + 1)
        workers := Function.update state.workers ⟨next, h⟩ .started
        channel := state.channel.addSender }
  /-- It has started all workers. -/
  | listen {next : Nat} (hcollector : state.collector = .starting next) (h : ¬next < n) :
      Move state { state with collector := .receiving, channel := state.channel.dropSender }
  /-- It reads a key. -/
  | read {key : String} {queue : List String} (hcollector : state.collector = .receiving)
      (hqueue : state.channel.queue = key :: queue) :
      Move state { state with
        keys := state.keys ++ [key]
        channel := { state.channel with queue } }
  /-- It learns that there are no more keys. -/
  | learn (hcollector : state.collector = .receiving) (hqueue : state.channel.queue = [])
      (hsenders : state.channel.senders = 0) :
      Move state { state with collector := .joining, channel := state.channel.dropReceiver }
  /-- All workers have ended. -/
  | join (hcollector : state.collector = .joining) (hended : ∀ i, state.workers i = .ended) :
      Move state { state with collector := .returned }
  /-- A worker takes its lock. -/
  | lock {i : Fin n} (hworker : state.workers i = .started)
      (hgrants : (state.cells i).lock.grants .shared = true) :
      Move state { state with
        cells := Function.update state.cells i
          { state.cells i with lock := (state.cells i).lock.take (.worker 0 i) .shared }
        workers := Function.update state.workers i (.sending 0)
        captured := Function.update state.captured i (some (state.cells i).table.keys) }
  /-- A worker sends a key. -/
  | send {i : Fin n} {sent : Nat} {key : String} (hworker : state.workers i = .sending sent)
      (hkey : (state.cells i).table.keys[sent]? = some key)
      (hopen : state.channel.receiving = true)
      (hroom : state.channel.queue.length < state.channel.capacity) :
      Move state { state with
        workers := Function.update state.workers i (.sending (sent + 1))
        channel := { state.channel with queue := state.channel.queue ++ [key] } }
  /-- A worker gives a key to the collecting thread that waits for one. -/
  | give {i : Fin n} {sent : Nat} {key : String} (hworker : state.workers i = .sending sent)
      (hkey : (state.cells i).table.keys[sent]? = some key)
      (hcapacity : state.channel.capacity = 0) (hcollector : state.collector = .receiving) :
      Move state { state with
        workers := Function.update state.workers i (.sending (sent + 1))
        keys := state.keys ++ [key] }
  /-- A worker gives its lock back: it has sent all keys, or finds nobody to send them to. -/
  | unlock {i : Fin n} {sent : Nat} (hworker : state.workers i = .sending sent)
      (hwhy : (state.cells i).table.keys[sent]? = none ∨ state.channel.receiving = false) :
      Move state { state with
        cells := state.cells.release (.worker 0 i) i .shared
        workers := Function.update state.workers i .released }
  /-- A worker ends. -/
  | finish {i : Fin n} (hworker : state.workers i = .released) :
      Move state { state with
        workers := Function.update state.workers i .ended
        channel := state.channel.dropSender }

theorem move_of_stepCollector (h : state.stepCollector = some state') : Move state state' := by
  unfold stepCollector at h
  split at h
  · next next hcollector =>
    split at h
    · next hlt => cases h; exact .start hcollector hlt
    · next hlt => cases h; exact .listen hcollector hlt
  · next hcollector =>
    split at h
    · next key channel hreceive =>
      cases h
      obtain ⟨queue, hqueue, rfl⟩ := Channel.receive_eq_item_iff.mp hreceive
      exact .read hcollector hqueue
    · next hreceive =>
      cases h
      obtain ⟨hqueue, hsenders⟩ := Channel.receive_eq_ended_iff.mp hreceive
      exact .learn hcollector hqueue hsenders
    · cases h
  · next hcollector =>
    split at h
    · next hended => cases h; exact .join hcollector hended
    · cases h
  · cases h

theorem move_of_stepKeyWorker (h : state.stepWorker i = some state') : Move state state' := by
  unfold stepWorker at h
  dsimp only at h
  split at h
  · cases h
  · next hworker =>
    rw [Option.map_eq_some_iff] at h
    obtain ⟨locked, htake, rfl⟩ := h
    unfold Cells.take? at htake
    split at htake
    · next hgrants =>
      cases htake
      rw [Function.update_self]
      exact .lock hworker hgrants
    · cases htake
  · next sent hworker =>
    split at h
    · next key hkey =>
      split at h
      · next channel hsend =>
        cases h
        obtain ⟨hopen, hroom, rfl⟩ := Channel.send_eq_queued_iff.mp hsend
        exact .send hworker hkey hopen hroom
      · next hsend =>
        cases h
        exact .unlock hworker (.inr (Channel.send_eq_refused_iff.mp hsend))
      · split at h
        · next hgive => cases h; exact .give hworker hkey hgive.1 hgive.2
        · cases h
    · next hnone => cases h; exact .unlock hworker (.inl hnone)
  · next hworker => cases h; exact .finish hworker
  · cases h

/-- Every step is one of the moves, or an act from outside. -/
theorem move_or_outside {actor : KeyActor n V} (h : state.step? actor = some state') :
    Move state state' ∨ ∃ act cells, actor = .outside act ∧
      state.cells.outside? act = some cells ∧ state' = { state with cells } := by
  cases actor with
  | collector => exact .inl (move_of_stepCollector h)
  | worker i => exact .inl (move_of_stepKeyWorker h)
  | outside act =>
    obtain ⟨cells, hact, rfl⟩ := Option.map_eq_some_iff.mp h
    exact .inr ⟨act, cells, rfl, hact, rfl⟩

/-- All that holds of a collection, whatever has happened. -/
structure Coherent (state : KeyCollection n V) : Prop where
  consistent : state.cells.Consistent
  /-- A worker that sends holds its lock and reads what it captured. -/
  held : ∀ i sent, state.workers i = .sending sent → .worker 0 i ∈ (state.cells i).lock.readers ∧
    state.captured i = some (state.cells i).table.keys
  captured : ∀ i, (state.captured i).isSome = (state.workers i).hasLocked
  /-- Workers are started one after another. -/
  starting : ∀ next, state.collector = .starting next →
    ∀ i, state.workers i = .absent ↔ next ≤ i.val
  started : (∀ next, state.collector ≠ .starting next) → ∀ i, state.workers i ≠ .absent
  senders : state.channel.senders = state.collector.senders + ∑ i, (state.workers i).senders
  /-- The channel is closed only when every worker has ended. -/
  receiving : state.channel.receiving = true ∨
    ∀ i, state.workers i = .ended
  /-- The collecting thread stops reading only when everything was read. -/
  joining : state.collector = .joining ∨ state.collector = .returned →
    state.channel.queue = [] ∧ ∀ i, state.workers i = .ended
  /-- What was sent was read or is in the channel. -/
  exchanged : ((state.keys ++ state.channel.queue : List String) : Multiset String) =
    ∑ i, (state.sentBy i : Multiset String)

/-! ## One worker goes on -/

/-- A worker's senders before and after it enters a stage. -/
theorem senders_update (workers : Fin n → KeyWorker) (i : Fin n) (worker : KeyWorker) :
    ∑ j, (Function.update workers i worker j).senders + (workers i).senders =
      ∑ j, (workers j).senders + worker.senders := by
  have hagree := sum_add_of_agree (f := fun j => (Function.update workers i worker j).senders)
    (g := fun j => (workers j).senders) i fun j hj => by rw [Function.update_of_ne hj]
  simpa only [Function.update_self] using hagree

/-- What was sent is accounted for after a worker has gone on if it is for this worker. -/
theorem exchanged_of_enter {worker : KeyWorker}
    (h : ((state.keys ++ state.channel.queue : List String) : Multiset String) =
      ∑ j, (state.sentBy j : Multiset String))
    (hworkers : state'.workers = Function.update state.workers i worker)
    (hcaptured : ∀ j, j ≠ i → state'.captured j = state.captured j)
    (hsent : ((state'.keys ++ state'.channel.queue : List String) : Multiset String) +
        (state.sentBy i : Multiset String) =
      ((state.keys ++ state.channel.queue : List String) : Multiset String) +
        (state'.sentBy i : Multiset String)) :
    ((state'.keys ++ state'.channel.queue : List String) : Multiset String) =
      ∑ j, (state'.sentBy j : Multiset String) := by
  have hagree := sum_add_of_agree (f := fun j => (state'.sentBy j : Multiset String))
    (g := fun j => (state.sentBy j : Multiset String)) i fun j hj => by
      simp only [sentBy, capturedKeys, hworkers, Function.update_of_ne hj, hcaptured j hj]
  apply add_right_cancel (b := (state.sentBy i : Multiset String))
  rw [hagree, hsent, h]

namespace Coherent

/-- Collections begin with nothing. -/
theorem start (cells : Cells n V) (h : cells.AtRest) (capacity : Nat) :
    Coherent { cells, channel := { capacity } } where
  consistent i := by
    rw [h i]
    exact ⟨Lock.consistent_free, fun run j hwriter => by cases hwriter⟩
  held i sent hworker := by cases hworker
  captured i := rfl
  starting next hcollector i := by
    cases hcollector
    simp
  started hcollector := absurd rfl (hcollector 0)
  senders := by simp [Collector.senders, KeyWorker.senders]
  receiving := .inl rfl
  joining hcollector := by simp at hcollector
  exchanged := by simp [sentBy]

/-- Until all workers have ended, the channel is read. -/
theorem reading (h : state.Coherent) (hi : state.workers i ≠ .ended) :
    state.channel.receiving = true ∧ ¬(state.collector = .joining ∨ state.collector = .returned) :=
  ⟨h.receiving.resolve_right fun hall => hi (hall i), fun hjoining => hi ((h.joining hjoining).2 i)⟩

/-- A worker that was started and has not ended goes on: what it does is right if it is right for
this worker. -/
theorem enter (h : state.Coherent) (i : Fin n) (worker : KeyWorker)
    (hworkers : state'.workers = Function.update state.workers i worker)
    (hbefore : state.workers i ≠ .absent ∧ state.workers i ≠ .ended) (hafter : worker ≠ .absent)
    (hcollector : state'.collector = state.collector)
    (hconsistent : state'.cells.Consistent)
    (hothers : ∀ j, j ≠ i → (state'.captured j = state.captured j) ∧
      (.worker 0 j ∈ (state.cells j).lock.readers → .worker 0 j ∈ (state'.cells j).lock.readers ∧
        (state'.cells j).table = (state.cells j).table))
    (hheld : ∀ sent, worker = .sending sent → .worker 0 i ∈ (state'.cells i).lock.readers ∧
      state'.captured i = some (state'.cells i).table.keys)
    (hcaptured : (state'.captured i).isSome = worker.hasLocked)
    (hreceiving : state'.channel.receiving = state.channel.receiving)
    (hsenders : state'.channel.senders + (state.workers i).senders =
      state.channel.senders + worker.senders)
    (hsent : ((state'.keys ++ state'.channel.queue : List String) : Multiset String) +
        (state.sentBy i : Multiset String) =
      ((state.keys ++ state.channel.queue : List String) : Multiset String) +
        (state'.sentBy i : Multiset String)) : state'.Coherent := by
  have hother {j : Fin n} (hj : j ≠ i) : state'.workers j = state.workers j := by
    rw [hworkers, Function.update_of_ne hj]
  have hself : state'.workers i = worker := by rw [hworkers, Function.update_self]
  have habsent (j : Fin n) : state'.workers j = .absent ↔ state.workers j = .absent := by
    by_cases hj : j = i
    · subst hj
      rw [hself]
      exact ⟨fun hw => absurd hw hafter, fun hw => absurd hw hbefore.1⟩
    · rw [hother hj]
  obtain ⟨hopen, hreading⟩ := h.reading hbefore.2
  refine ⟨hconsistent, fun j sent hj => ?_, fun j => ?_, fun next hnext j => ?_,
    fun hnext j => ?_, ?_, .inl (hreceiving.trans hopen), fun hjoining => ?_, ?_⟩
  · by_cases hji : j = i
    · subst hji
      exact hheld sent (hself.symm.trans hj)
    · rw [hother hji] at hj
      obtain ⟨hreader, hcurrent⟩ := h.held j sent hj
      obtain ⟨hreader', htable⟩ := (hothers j hji).2 hreader
      rw [(hothers j hji).1, htable]
      exact ⟨hreader', hcurrent⟩
  · by_cases hji : j = i
    · subst hji
      rw [hself, hcaptured]
    · rw [hother hji, (hothers j hji).1, h.captured]
  · rw [habsent]
    exact h.starting next (hcollector.symm.trans hnext) j
  · rw [Ne, habsent]
    exact h.started (fun next hstarting => hnext next (hcollector.trans hstarting)) j
  · have hupdate := senders_update state.workers i worker
    have htotal := h.senders
    rw [hworkers, hcollector]
    omega
  · rw [hcollector] at hjoining
    exact absurd hjoining hreading
  · exact exchanged_of_enter h.exchanged hworkers (fun j hj => (hothers j hj).1) hsent

/-- A worker's senders are among those of the channel. -/
theorem senders_le (h : state.Coherent) (i : Fin n) :
    (state.workers i).senders ≤ state.channel.senders := by
  have hle := Finset.single_le_sum (f := fun j => (state.workers j).senders)
    (fun j _ => Nat.zero_le _) (Finset.mem_univ i)
  rw [h.senders]
  exact hle.trans (Nat.le_add_left _ _)

/-- Starting a worker. -/
theorem starts (h : state.Coherent) {next : Nat} (hcollector : state.collector = .starting next)
    (hlt : next < n) :
    Coherent { state with
      collector := .starting (next + 1)
      workers := Function.update state.workers ⟨next, hlt⟩ .started
      channel := state.channel.addSender } := by
  have habsent : state.workers ⟨next, hlt⟩ = .absent :=
    (h.starting next hcollector _).mpr (Nat.le_refl next)
  have hworker {j : Fin n} (hj : j ≠ ⟨next, hlt⟩) :
      Function.update state.workers ⟨next, hlt⟩ KeyWorker.started j = state.workers j :=
    Function.update_of_ne hj _ _
  have hopen := (h.reading (i := ⟨next, hlt⟩) (by simp [habsent])).1
  refine ⟨h.consistent, fun j sent hj => ?_, fun j => ?_, fun later hlater j => ?_,
    fun hnot => absurd rfl (hnot (next + 1)), ?_, .inl hopen, fun hjoining => by simp at hjoining, ?_⟩
  · by_cases hj' : j = ⟨next, hlt⟩
    · subst hj'
      simp at hj
    · exact h.held j sent ((hworker hj').symm.trans hj)
  · by_cases hj : j = ⟨next, hlt⟩
    · subst hj
      have hcaptured := h.captured ⟨next, hlt⟩
      rw [habsent] at hcaptured
      simp only [Function.update_self]
      exact hcaptured
    · simp only [hworker hj]
      exact h.captured j
  · obtain rfl : next + 1 = later := Collector.starting.inj hlater
    by_cases hj : j = ⟨next, hlt⟩
    · subst hj
      simp
    · have hne : j.val ≠ next := fun heq => hj (Fin.ext heq)
      simp only [hworker hj, h.starting next hcollector j]
      omega
  · have hupdate := senders_update state.workers ⟨next, hlt⟩ .started
    have htotal := h.senders
    rw [habsent] at hupdate
    simp only [hcollector, Collector.senders, Channel.addSender, KeyWorker.senders] at hupdate htotal ⊢
    omega
  · refine exchanged_of_enter h.exchanged rfl (fun _ _ => rfl) ?_
    simp only [sentBy, habsent, Function.update_self, Channel.addSender]

/-- A worker that sends a key, which is in the channel then or was read at once. -/
theorem sends (h : state.Coherent) {sent : Nat} {key : String}
    (hworker : state.workers i = .sending sent)
    (hkey : (state.cells i).table.keys[sent]? = some key)
    (hworkers : state'.workers = Function.update state.workers i (.sending (sent + 1)))
    (hsame : state'.cells = state.cells ∧ state'.collector = state.collector ∧
      state'.captured = state.captured)
    (hchannel : state'.channel.receiving = state.channel.receiving ∧
      state'.channel.senders = state.channel.senders)
    (hkeys : (state'.keys ++ state'.channel.queue).Perm
      (state.keys ++ state.channel.queue ++ [key])) : state'.Coherent := by
  obtain ⟨hcells, hcollector, hcaptured⟩ := hsame
  obtain ⟨hheld, hcurrent⟩ := h.held i sent hworker
  refine h.enter i (.sending (sent + 1)) hworkers (by simp [hworker]) KeyWorker.noConfusion
    hcollector ?hconsistent ?hothers ?hheld ?hcaptured ?hreceiving ?hsenders ?hsent
  case hconsistent => exact hcells ▸ h.consistent
  case hothers =>
    intro j hj
    rw [hcaptured, hcells]
    exact ⟨rfl, fun hreader => ⟨hreader, rfl⟩⟩
  case hheld =>
    intro more hmore
    rw [hcells, hcaptured]
    exact ⟨hheld, hcurrent⟩
  case hcaptured => rw [hcaptured, hcurrent]; rfl
  case hreceiving => exact hchannel.1
  case hsenders => rw [hchannel.2, hworker]; rfl
  case hsent =>
    -- One more of the captured keys was sent.
    have htake : (state.cells i).table.keys.take (sent + 1) =
        (state.cells i).table.keys.take sent ++ [key] := by
      rw [List.take_add_one, hkey, Option.toList_some]
    have hperm := Multiset.coe_eq_coe.mpr hkeys
    simp only [sentBy, capturedKeys, hworkers, Function.update_self, hworker, hcaptured, hcurrent,
      Option.getD_some, htake, hperm, ← Multiset.coe_add]
    rw [add_assoc, add_comm ([key] : Multiset String)]

/-- Others act on the shards as the locks allow. -/
theorem outside (h : state.Coherent) {act : Outside n V} {cells : Cells n V}
    (hact : state.cells.outside? act = some cells) : Coherent { state with cells } := by
  obtain ⟨hconsistent, hspares⟩ := h.consistent.outside? hact
  refine { h with consistent := hconsistent, held := fun j sent hj => ?_ }
  obtain ⟨hreader, hcurrent⟩ := h.held j sent hj
  obtain ⟨hreader', htable⟩ := hspares 0 j hreader
  exact ⟨hreader', by rw [hcurrent, htable]⟩

/-- Every move keeps a collection coherent. -/
theorem move (h : state.Coherent) (hmove : Move state state') : state'.Coherent := by
  cases hmove with
  | start hcollector hlt => exact h.starts hcollector hlt
  | @listen next hcollector hlt =>
    have hstarted (j : Fin n) : state.workers j ≠ .absent := by
      rw [Ne, h.starting next hcollector]
      have hj := j.isLt
      omega
    have htotal := h.senders
    refine { h with
      starting := fun next hnext => Collector.noConfusion hnext
      started := fun _ => hstarted
      senders := ?_
      joining := fun hjoining => by simp at hjoining }
    simp only [hcollector, Channel.dropSender, Collector.senders] at htotal ⊢
    omega
  | @read key queue hcollector hqueue =>
    have hexchanged := h.exchanged
    rw [hqueue] at hexchanged
    refine { h with
      joining := fun hjoining => by simp [hcollector] at hjoining
      exchanged := ?_ }
    rw [List.append_assoc]
    exact hexchanged
  | learn hcollector hqueue hsenders =>
    -- Without senders no worker is left.
    have hended (j : Fin n) : state.workers j = .ended := by
      have hle := h.senders_le j
      rw [hsenders] at hle
      have habsent := h.started (by simp [hcollector]) j
      cases hworker : state.workers j with
      | ended => rfl
      | absent => exact absurd hworker habsent
      | _ => rw [hworker] at hle; cases hle
    have htotal := h.senders
    have hexchanged := h.exchanged
    rw [hqueue] at hexchanged
    rw [hcollector] at htotal
    exact { h with
      starting := fun next hnext => Collector.noConfusion hnext
      started := fun _ => h.started (by simp [hcollector])
      senders := htotal
      receiving := .inr hended
      joining := fun _ => ⟨rfl, hended⟩
      exchanged := hexchanged }
  | join hcollector hended =>
    have htotal := h.senders
    rw [hcollector] at htotal
    exact { h with
      starting := fun next hnext => Collector.noConfusion hnext
      started := fun _ => h.started (by simp [hcollector])
      senders := htotal
      joining := fun _ => h.joining (.inl hcollector) }
  | @lock i hworker hgrants =>
    refine h.enter i (.sending 0) rfl (by simp [hworker]) KeyWorker.noConfusion rfl
      ?hconsistent ?hothers ?hheld ?hcaptured ?hreceiving ?hsenders ?hsent
    case hconsistent =>
      exact h.consistent.update i _ (Lock.consistent_take hgrants _) (h.consistent i).2
    case hothers =>
      intro j hj
      simp only [Function.update_of_ne hj]
      exact ⟨trivial, fun hreader => ⟨hreader, trivial⟩⟩
    case hheld =>
      intro sent hsent
      simp only [Function.update_self]
      exact ⟨List.mem_cons_self, trivial⟩
    case hcaptured => simp only [Function.update_self]; rfl
    case hreceiving => rfl
    case hsenders => rw [hworker]; rfl
    case hsent => simp only [sentBy, hworker, Function.update_self, List.take_zero]
  | send hworker hkey hopen hroom =>
    refine h.sends hworker hkey rfl ⟨rfl, rfl, rfl⟩ ⟨rfl, rfl⟩ ?_
    rw [List.append_assoc]
  | @give i sent key hworker hkey hcapacity hcollector =>
    refine h.sends hworker hkey rfl ⟨rfl, rfl, rfl⟩ ⟨rfl, rfl⟩ ?_
    rw [List.append_assoc, List.append_assoc]
    exact (List.perm_append_comm).append_left _
  | @unlock i sent hworker hwhy =>
    obtain ⟨hheld, hcurrent⟩ := h.held i sent hworker
    have hopen := (h.reading (i := i) (by simp [hworker])).1
    refine h.enter i .released rfl (by simp [hworker]) KeyWorker.noConfusion rfl
      ?hconsistent ?hothers ?hheld ?hcaptured ?hreceiving ?hsenders ?hsent
    case hconsistent =>
      exact h.consistent.update i _ (Lock.consistent_release (h.consistent i).1 _ _)
        (h.consistent i).2
    case hothers =>
      intro j hj
      simp only [Cells.release, Function.update_of_ne hj]
      exact ⟨trivial, fun hreader => ⟨hreader, trivial⟩⟩
    case hheld => exact fun more hmore => KeyWorker.noConfusion hmore
    case hcaptured => rw [hcurrent]; rfl
    case hreceiving => rfl
    case hsenders => rw [hworker]; rfl
    case hsent =>
      -- Somebody listens, so it has sent all that it captured.
      have hall : (state.cells i).table.keys.take sent = (state.cells i).table.keys := by
        rcases hwhy with hnone | hclosed
        · exact List.take_of_length_le (List.getElem?_eq_none_iff.mp hnone)
        · rw [hopen] at hclosed
          cases hclosed
      simp only [sentBy, capturedKeys, hworker, hcurrent, Function.update_self, Option.getD_some,
        hall]
  | @finish i hworker =>
    refine h.enter i .ended rfl (by simp [hworker]) KeyWorker.noConfusion rfl
      ?hconsistent ?hothers ?hheld ?hcaptured ?hreceiving ?hsenders ?hsent
    case hconsistent => exact h.consistent
    case hothers => exact fun j hj => ⟨rfl, fun hreader => ⟨hreader, rfl⟩⟩
    case hheld => exact fun more hmore => KeyWorker.noConfusion hmore
    case hcaptured => rw [h.captured, hworker]; rfl
    case hreceiving => rfl
    case hsenders =>
      have hpos := h.senders_le i
      rw [hworker] at hpos ⊢
      simp only [Channel.dropSender, KeyWorker.senders] at hpos ⊢
      omega
    case hsent => simp only [sentBy, capturedKeys, hworker, Function.update_self, Channel.dropSender]

/-- When the collecting thread has returned, it has all keys that were captured. -/
theorem perm_of_returned (h : state.Coherent) (hcollector : state.collector = .returned) :
    state.keys.Perm ((List.finRange n).flatMap state.capturedKeys) := by
  obtain ⟨hqueue, hended⟩ := h.joining (.inr hcollector)
  have hexchanged := h.exchanged
  rw [hqueue, List.append_nil] at hexchanged
  have hsent (i : Fin n) : state.sentBy i = state.capturedKeys i := by rw [sentBy, hended i]
  have hsum : ∑ i, (state.sentBy i : Multiset String) =
      ((List.finRange n).flatMap state.capturedKeys : List String) := by
    simp only [hsent, Fin.sum_univ_def]
    induction List.finRange n with
    | nil => rfl
    | cons i rest ih =>
      rw [List.map_cons, List.sum_cons, List.flatMap_cons, ← Multiset.coe_add, ih]
  exact Multiset.coe_eq_coe.mp (hexchanged.trans hsum)

/-- Whatever happens, collections stay coherent. -/
theorem step (h : state.Coherent) {actor : KeyActor n V} (hstep : state.step? actor = some state') :
    state'.Coherent := by
  rcases move_or_outside hstep with hmove | ⟨act, cells, -, hact, rfl⟩
  · exact h.move hmove
  · exact h.outside hact

end Coherent

/-- The collecting thread and the workers write nothing, and a worker captures what it finds. -/
theorem Move.tables (hmove : Move state state') (i : Fin n) :
    (state'.cells i).table = (state.cells i).table ∧
      (state'.captured i = state.captured i ∨
        state'.captured i = some (state.cells i).table.keys) := by
  cases hmove with
  | @lock j hworker hgrants =>
    by_cases hj : i = j
    · subst hj
      simp only [Function.update_self]
      exact ⟨trivial, .inr trivial⟩
    · simp only [Function.update_of_ne hj]
      exact ⟨trivial, .inl trivial⟩
  | @unlock j sent hworker hwhy =>
    refine ⟨?_, .inl rfl⟩
    by_cases hj : i = j
    · subst hj
      simp only [Cells.release, Function.update_self]
    · simp only [Cells.release, Function.update_of_ne hj]
  | _ => exact ⟨rfl, .inl rfl⟩

end KeyCollection

end ShardStore
