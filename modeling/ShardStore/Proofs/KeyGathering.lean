import ShardStore.Proofs.Traversals.Keys
import ShardStore.Proofs.Traversals.Readers

/-!
# Listing the keys among other threads

However much room there is for keys on the way, and whatever other threads do meanwhile, a list of
keys that is handed out names each key once for each shard that had it when its worker took the lock
(`KeyCollection.TookLock`). Nobody waits for anybody in a circle: as long as the collecting thread
has not returned, it or a worker can make a step, unless a worker waits for a thread outside that
writes (`KeyCollection.Coherent.goesOn`). When it has returned, no worker holds a lock.

The workers share one channel, so a worker may wait for room while it holds its lock. Room comes
from the collecting thread, which waits for nothing but keys and, when the channel has ended, for
workers that have nothing more to send.
-/

namespace ShardStore

/-- Whether a worker holds its lock. -/
def KeyWorker.holds : KeyWorker → Bool
  | .sending _ => true
  | _ => false

/-- What a worker has left to do for `length` keys after it has taken its lock. -/
def KeyWorker.work (length : Nat) : KeyWorker → Nat
  | .sending sent => 3 * (length - sent) + 2
  | .released => 1
  | _ => 0

/-- What the collecting thread of `n` shards has left to do besides reading keys. -/
def Collector.work (n : Nat) : Collector → Nat
  | .starting next => (n - next) + 3
  | .receiving => 2
  | .joining => 1
  | .returned => 0

namespace KeyCollection

variable {n : Nat} {V : Type} {capacity : Nat} {state state' : KeyCollection n V} {i : Fin n}

theorem Reachable.coherent (h : state.Reachable capacity) : state.Coherent := by
  induction h with
  | start cells hrest => exact .start cells hrest capacity
  | step actor hreachable hstep ih => exact ih.step hstep

/-! ## What workers find -/

/-- On the way to this state the worker of shard `i` took its lock and found `table`. -/
def TookLock (capacity : Nat) (state : KeyCollection n V) (i : Fin n) (table : Table V) : Prop :=
  ∃ (before after : KeyCollection n V) (actor : KeyActor n V) (actors : List (KeyActor n V)),
    before.Reachable capacity ∧ before.step? actor = some after ∧
      actors.foldlM step? after = some state ∧
      before.workers i = .started ∧ after.workers i = .sending 0 ∧ (before.cells i).table = table

/-- What was captured stays captured. -/
theorem Coherent.captured_eq (h : state.Coherent) {actor : KeyActor n V}
    (hstep : state.step? actor = some state') {keys : List String}
    (hcaptured : state.captured i = some keys) : state'.captured i = some keys := by
  rcases move_or_outside hstep with hmove | ⟨act, cells, -, -, rfl⟩
  · cases hmove with
    | @lock j hworker hgrants =>
      have hne : i ≠ j := by
        rintro rfl
        have hlocked := h.captured i
        simp [hcaptured, hworker, KeyWorker.hasLocked] at hlocked
      simp only [Function.update_of_ne hne]
      exact hcaptured
    | _ => exact hcaptured
  · exact hcaptured

/-- A worker that takes its lock captures the keys that are there. -/
theorem Coherent.captured_of_lock (h : state.Coherent) {actor : KeyActor n V}
    (hstep : state.step? actor = some state') (hbefore : state.workers i = .started)
    (hafter : state'.workers i = .sending 0) :
    state'.captured i = some (state.cells i).table.keys := by
  rw [((h.step hstep).held i 0 hafter).2]
  rcases move_or_outside hstep with hmove | ⟨act, cells, -, -, rfl⟩
  · rw [(hmove.tables i).1]
  · rw [hbefore] at hafter
    cases hafter

/-- A shard whose keys are captured in a step is one whose worker takes its lock. -/
theorem started_of_captured {actor : KeyActor n V}
    (hstep : state.step? actor = some state') (hbefore : state.captured i = none)
    {keys : List String} (hafter : state'.captured i = some keys) :
    state.workers i = .started ∧ state'.workers i = .sending 0 := by
  rcases move_or_outside hstep with hmove | ⟨act, cells, -, -, rfl⟩
  · cases hmove with
    | @lock j hworker hgrants =>
      by_cases hj : i = j
      · subst hj
        exact ⟨hworker, Function.update_self ..⟩
      · simp [Function.update_of_ne hj, hbefore] at hafter
    | _ => simp [hbefore] at hafter
  · simp [hbefore] at hafter

theorem TookLock.captured {table : Table V} (h : state.TookLock capacity i table) :
    state.captured i = some table.keys := by
  obtain ⟨before, after, actor, actors, hreachable, hstep, hsteps, hstarted, hlocked, rfl⟩ := h
  have hcaptured := hreachable.coherent.captured_of_lock hstep hstarted hlocked
  have hcoherent := hreachable.coherent.step hstep
  clear hstep hlocked
  induction actors generalizing after with
  | nil => cases hsteps; exact hcaptured
  | cons first rest ih =>
    rw [List.foldlM_cons] at hsteps
    obtain ⟨next, hfirst, hrest⟩ := Option.bind_eq_some_iff.mp hsteps
    exact ih next hrest (hcoherent.captured_eq hfirst hcaptured) (hcoherent.step hfirst)

theorem TookLock.step {table : Table V} (h : state.TookLock capacity i table)
    {actor : KeyActor n V} (hstep : state.step? actor = some state') :
    state'.TookLock capacity i table := by
  obtain ⟨before, after, lock, actors, hreachable, hlock, hsteps, hrest⟩ := h
  refine ⟨before, after, lock, actors ++ [actor], hreachable, hlock, ?_, hrest⟩
  rw [List.foldlM_append, hsteps]
  simpa [List.foldlM] using hstep

/-- What is captured was found by a worker when it took its lock. -/
theorem Reachable.exists_tookLock (h : state.Reachable capacity) {keys : List String}
    (hcaptured : state.captured i = some keys) :
    ∃ table, state.TookLock capacity i table ∧ table.keys = keys := by
  induction h generalizing keys with
  | start cells hrest => cases hcaptured
  | @step state state' actor hreachable hstep ih =>
    have hcoherent := hreachable.coherent
    -- Either it was captured before, or this is the step in which it is.
    cases hcase : state.captured i with
    | some other =>
      rw [hcoherent.captured_eq hstep hcase] at hcaptured
      cases hcaptured
      obtain ⟨table, htook, hkeys⟩ := ih hcase
      exact ⟨table, htook.step hstep, hkeys⟩
    | none =>
      obtain ⟨hstarted, hlocked⟩ := started_of_captured hstep hcase hcaptured
      rw [hcoherent.captured_of_lock hstep hstarted hlocked] at hcaptured
      exact ⟨(state.cells i).table, ⟨state, state', actor, [], hreachable, hstep, rfl, hstarted,
        hlocked, rfl⟩, Option.some.inj hcaptured⟩

/-! ## Which locks workers hold -/

/-- The workers that hold a lock stand among its readers, each once, and no others. -/
def Tracked (state : KeyCollection n V) : Prop :=
  ∀ (i : Fin n) (run j : Nat), (state.cells i).lock.readers.count (.worker run j) =
    if run = 0 ∧ j = i.val ∧ (state.workers i).holds = true then 1 else 0

/-- A worker that enters a stage at which it holds its lock just as before is tracked. -/
theorem Tracked.enter (h : state.Tracked) {worker : KeyWorker} (hcells : state'.cells = state.cells)
    (hworkers : state'.workers = Function.update state.workers i worker)
    (hholds : worker.holds = (state.workers i).holds) : state'.Tracked := by
  intro k run j
  rw [hcells, hworkers, h k run j]
  by_cases hk : k = i
  · subst hk
    rw [Function.update_self, hholds]
  · rw [Function.update_of_ne hk]

theorem Tracked.move (h : state.Tracked) (hcoherent : state.Coherent)
    (hmove : Move state state') : state'.Tracked := by
  cases hmove with
  | @start next hcollector hlt =>
    have habsent := (hcoherent.starting next hcollector ⟨next, hlt⟩).mpr (Nat.le_refl next)
    exact h.enter rfl rfl (by rw [habsent]; rfl)
  | @lock i hworker hgrants =>
    intro k run j
    rw [Cells.count_take, h k run j]
    by_cases hk : k = i
    · subst hk
      simp [hworker, KeyWorker.holds, eq_comm]
    · simp [hk]
  | send hworker hkey hopen hroom => exact h.enter rfl rfl (by rw [hworker]; rfl)
  | give hworker hkey hcapacity hcollector => exact h.enter rfl rfl (by rw [hworker]; rfl)
  | @unlock i sent hworker hwhy =>
    intro k run j
    rw [Cells.count_release, h k run j]
    by_cases hk : k = i
    · subst hk
      simp [hworker, KeyWorker.holds, eq_comm]
    · simp [hk]
  | finish hworker => exact h.enter rfl rfl (by rw [hworker]; rfl)
  | _ => exact h

theorem Reachable.tracked (h : state.Reachable capacity) : state.Tracked := by
  induction h with
  | start cells hrest =>
    intro i run j
    simp [hrest i, Lock.free, KeyWorker.holds]
  | step actor hreachable hstep ih =>
    rcases move_or_outside hstep with hmove | ⟨act, cells, -, hact, rfl⟩
    · exact ih.move hreachable.coherent hmove
    · intro i run j
      rw [Cells.count_outside? hact]
      exact ih i run j

/-- A worker holds no lock but while it sends. -/
theorem Reachable.not_heldBy_worker (h : state.Reachable capacity)
    (hholds : (state.workers i).holds = false) (run j : Nat) :
    ¬(state.cells i).lock.HeldBy (.worker run j) := by
  rintro (hreader | hwriter)
  · have hpos := List.count_pos_iff.mpr hreader
    rw [h.tracked i run j, hholds] at hpos
    simp at hpos
  · exact (h.coherent.consistent i).2 run j hwriter

/-! ## Somebody can go on -/

/-- The collecting thread or a worker can make a step. -/
def GoesOn (state : KeyCollection n V) : Prop :=
  (state.step? .collector).isSome = true ∨ ∃ i, (state.step? (.worker i)).isSome = true

/-- A worker waits for a thread outside that writes. -/
def Held (state : KeyCollection n V) : Prop :=
  ∃ i thread, state.workers i = .started ∧ (state.cells i).lock.writer = some (.other thread)

namespace Coherent

/-- While the collecting thread reads and nothing is queued, a worker that was started and has not
ended can go on, or waits for its lock. -/
theorem goesOn_of_worker (h : state.Coherent) (hcollector : state.collector = .receiving)
    (hqueue : state.channel.queue = []) (habsent : state.workers i ≠ .absent)
    (hended : state.workers i ≠ .ended) : state.GoesOn ∨ state.Held := by
  cases hworker : state.workers i with
  | absent => exact absurd hworker habsent
  | started =>
    cases hgrants : (state.cells i).lock.grants .shared with
    | true =>
      refine .inl (.inr ⟨i, ?_⟩)
      simp [step?, stepWorker, hworker, Cells.take?, hgrants]
    | false =>
      obtain ⟨thread, hwriter⟩ := h.consistent.exists_writer hgrants
      exact .inr ⟨i, thread, hworker, hwriter⟩
  | sending sent =>
    refine .inl (.inr ⟨i, ?_⟩)
    cases hkey : (state.cells i).table.keys[sent]? with
    | none => simp [step?, stepWorker, hworker, hkey]
    | some key =>
      -- There is room, or the key passes from hand to hand.
      cases hsend : state.channel.send key with
      | queued channel => simp [step?, stepWorker, hworker, hkey, hsend]
      | refused => simp [step?, stepWorker, hworker, hkey, hsend]
      | waits =>
        have hfull := (Channel.send_eq_waits_iff.mp hsend).2
        rw [hqueue, List.length_nil] at hfull
        have hcapacity : state.channel.capacity = 0 := by omega
        simp [step?, stepWorker, hworker, hkey, hsend, hcapacity, hcollector]
  | released =>
    refine .inl (.inr ⟨i, ?_⟩)
    simp [step?, stepWorker, hworker]
  | ended => exact absurd hworker hended

/-- A sender that is left, when the collecting thread has none, is that of a worker. -/
theorem exists_worker_of_senders (h : state.Coherent) (hcollector : state.collector.senders = 0)
    (hsenders : state.channel.senders ≠ 0) :
    ∃ i, state.workers i ≠ .absent ∧ state.workers i ≠ .ended := by
  by_contra hnone
  simp only [not_exists, not_and, not_not] at hnone
  apply hsenders
  rw [h.senders, hcollector, Nat.zero_add]
  refine Finset.sum_eq_zero fun i _ => ?_
  by_cases habsent : state.workers i = .absent
  · rw [habsent]
    rfl
  · rw [hnone i habsent]
    rfl

/-- Until the collecting thread returns, it or a worker can make a step, or a worker waits for a
thread outside that writes. -/
theorem goesOn (h : state.Coherent) (hnot : state.collector ≠ .returned) :
    state.GoesOn ∨ state.Held := by
  cases hcollector : state.collector with
  | starting next =>
    refine .inl (.inl ?_)
    by_cases hlt : next < n <;> simp [step?, stepCollector, hcollector, hlt]
  | receiving =>
    cases hqueue : state.channel.queue with
    | cons key queue =>
      refine .inl (.inl ?_)
      simp [step?, stepCollector, hcollector, Channel.receive, hqueue]
    | nil =>
      by_cases hsenders : state.channel.senders = 0
      · refine .inl (.inl ?_)
        simp [step?, stepCollector, hcollector, Channel.receive, hqueue, hsenders]
      · obtain ⟨i, habsent, hended⟩ :=
          h.exists_worker_of_senders (by rw [hcollector]; rfl) hsenders
        exact h.goesOn_of_worker hcollector hqueue habsent hended
  | joining =>
    refine .inl (.inl ?_)
    have hended := (h.joining (.inl hcollector)).2
    simp [step?, stepCollector, hcollector, hended]
  | returned => exact absurd hcollector hnot

end Coherent

/-! ## Every step brings the end nearer -/

/-- How many workers have not taken their locks. -/
def unlocked (state : KeyCollection n V) : Nat :=
  ∑ i, if (state.workers i).hasLocked = true then 0 else 1

/-- What is left to do for the keys that are captured. -/
def work (state : KeyCollection n V) : Nat :=
  state.collector.work n + 2 * state.channel.queue.length +
    ∑ i, (state.workers i).work (state.capturedKeys i).length

/-- Fewer workers are without their locks, or there is less left to do. -/
def Nearer (state state' : KeyCollection n V) : Prop :=
  state'.unlocked < state.unlocked ∨
    state'.unlocked = state.unlocked ∧ state'.work < state.work

/-- Less is left to do where the workers stay as they are. -/
theorem nearer_of_collector (hworkers : state'.workers = state.workers)
    (hcaptured : state'.captured = state.captured)
    (hless : state'.collector.work n + 2 * state'.channel.queue.length <
      state.collector.work n + 2 * state.channel.queue.length) : state.Nearer state' := by
  refine .inr ⟨?_, ?_⟩
  · rw [unlocked, unlocked, hworkers]
  · simp only [work, capturedKeys, hworkers, hcaptured]
    omega

/-- Less is left to do where a worker goes on that has as many senders queue as it has fewer keys
to send. -/
theorem nearer_of_worker {worker : KeyWorker}
    (hworkers : state'.workers = Function.update state.workers i worker)
    (hcaptured : state'.captured = state.captured)
    (hlocked : worker.hasLocked = (state.workers i).hasLocked)
    (hless : state'.collector.work n + 2 * state'.channel.queue.length +
        worker.work (state.capturedKeys i).length <
      state.collector.work n + 2 * state.channel.queue.length +
        (state.workers i).work (state.capturedKeys i).length) : state.Nearer state' := by
  have hkeys (j : Fin n) : state'.capturedKeys j = state.capturedKeys j := by
    rw [capturedKeys, capturedKeys, hcaptured]
  refine .inr ⟨?_, ?_⟩
  · rw [unlocked, unlocked, hworkers]
    refine Finset.sum_congr rfl fun j _ => ?_
    by_cases hj : j = i
    · subst hj
      rw [Function.update_self, hlocked]
    · rw [Function.update_of_ne hj]
  · have hagree := sum_add_of_agree i
      (f := fun j => (state'.workers j).work (state'.capturedKeys j).length)
      (g := fun j => (state.workers j).work (state.capturedKeys j).length)
      fun j hj => by rw [hworkers, Function.update_of_ne hj, hkeys]
    simp only [hworkers, Function.update_self, hkeys] at hagree
    simp only [work, hworkers, hkeys]
    omega

/-- A worker with a key to send has not sent all that it captured. -/
theorem Coherent.lt_of_key (h : state.Coherent) {sent : Nat} {key : String}
    (hworker : state.workers i = .sending sent)
    (hkey : (state.cells i).table.keys[sent]? = some key) :
    sent < (state.capturedKeys i).length := by
  rw [capturedKeys, (h.held i sent hworker).2]
  exact (List.getElem?_eq_some_iff.mp hkey).1

/-- Every move of the collecting thread or of a worker brings the end nearer. -/
theorem Coherent.nearer (h : state.Coherent) (hmove : Move state state') :
    state.Nearer state' := by
  cases hmove with
  | @start next hcollector hlt =>
    have habsent := (h.starting next hcollector ⟨next, hlt⟩).mpr (Nat.le_refl next)
    refine nearer_of_worker rfl rfl (by rw [habsent]; rfl) ?_
    simp only [hcollector, habsent, Collector.work, KeyWorker.work, Channel.addSender]
    omega
  | listen hcollector hlt =>
    refine nearer_of_collector rfl rfl ?_
    simp only [hcollector, Collector.work, Channel.dropSender]
    omega
  | read hcollector hqueue =>
    refine nearer_of_collector rfl rfl ?_
    simp only [hqueue, List.length_cons]
    omega
  | learn hcollector hqueue hsenders =>
    refine nearer_of_collector rfl rfl ?_
    simp only [hcollector, hqueue, Collector.work, Channel.dropReceiver]
    omega
  | join hcollector hended =>
    refine nearer_of_collector rfl rfl ?_
    simp only [hcollector, Collector.work]
    omega
  | @lock i hworker hgrants =>
    refine .inl (Finset.sum_lt_sum (fun j _ => ?_) ⟨i, Finset.mem_univ i, ?_⟩)
    · by_cases hj : j = i
      · subst hj
        simp [KeyWorker.hasLocked]
      · simp [Function.update_of_ne hj]
    · simp [hworker, KeyWorker.hasLocked]
  | send hworker hkey hopen hroom =>
    have hlt := h.lt_of_key hworker hkey
    refine nearer_of_worker rfl rfl (by rw [hworker]; rfl) ?_
    simp only [hworker, KeyWorker.work, List.length_append, List.length_singleton]
    omega
  | give hworker hkey hcapacity hcollector =>
    have hlt := h.lt_of_key hworker hkey
    refine nearer_of_worker rfl rfl (by rw [hworker]; rfl) ?_
    simp only [hworker, KeyWorker.work]
    omega
  | unlock hworker hwhy =>
    refine nearer_of_worker rfl rfl (by rw [hworker]; rfl) ?_
    simp only [hworker, KeyWorker.work]
    omega
  | finish hworker =>
    refine nearer_of_worker rfl rfl (by rw [hworker]; rfl) ?_
    simp only [hworker, KeyWorker.work, Channel.dropSender]
    omega

/-! ## The statement -/

/-- What holds in a state of a collection with room for `capacity` keys on the way. -/
structure Gathers (capacity : Nat) (state : KeyCollection n V) : Prop where
  /-- A worker takes its lock once at most. -/
  once : ∀ i table table', state.TookLock capacity i table → state.TookLock capacity i table' →
    table.keys = table'.keys
  /-- A list that is handed out names the keys that the workers found, once for each of them. -/
  gathered : state.collector = .returned → ∃ tables : Fin n → Table V,
    (∀ i, state.TookLock capacity i (tables i)) ∧
      state.keys.Perm ((List.finRange n).flatMap fun i => (tables i).keys)
  /-- By then no worker is left, and none holds a lock. -/
  released : state.collector = .returned → (∀ i, state.workers i = .ended) ∧
    ∀ i run j, ¬(state.cells i).lock.HeldBy (.worker run j)
  /-- Until all have ended, one of them can make a step, or one waits for a lock that a thread
  outside holds. -/
  goesOn : (state.collector ≠ .returned ∨ ∃ i, state.workers i ≠ .ended) →
    state.GoesOn ∨ state.Held
  /-- Each step of theirs brings the end nearer. -/
  nearer : ∀ state', (state.step? .collector = some state' ∨
    ∃ i, state.step? (.worker i) = some state') → state.Nearer state'
  /-- Others can only act on the shards. -/
  outside : ∀ act state', state.step? (.outside act) = some state' →
    state' = { state with cells := state'.cells }

theorem Reachable.exists_tables (h : state.Reachable capacity)
    (hcollector : state.collector = .returned) :
    ∃ tables : Fin n → Table V, (∀ i, state.TookLock capacity i (tables i)) ∧
      ∀ i, (tables i).keys = state.capturedKeys i := by
  have htook (i : Fin n) :
      ∃ table, state.TookLock capacity i table ∧ table.keys = state.capturedKeys i := by
    have hlocked := h.coherent.captured i
    rw [(h.coherent.joining (.inr hcollector)).2 i] at hlocked
    obtain ⟨keys, hkeys⟩ := Option.isSome_iff_exists.mp hlocked
    obtain ⟨table, htable, rfl⟩ := h.exists_tookLock hkeys
    refine ⟨table, htable, ?_⟩
    rw [capturedKeys, hkeys, Option.getD_some]
  choose tables htables using htook
  exact ⟨tables, fun i => (htables i).1, fun i => (htables i).2⟩

/-- **Keys are gathered once.** Whatever room there is for keys on the way, and however the
collecting thread, the workers and threads that write come to act: a list of keys that is handed out
names what each shard had when its worker took the lock, and no two of them wait for each other. -/
theorem keys_are_gathered_once (h : state.Reachable capacity) : state.Gathers capacity := by
  have hcoherent := h.coherent
  constructor
  case once =>
    intro i table table' htook htook'
    have hcaptured := htook.captured
    rw [htook'.captured] at hcaptured
    exact (Option.some.inj hcaptured).symm
  case gathered =>
    intro hcollector
    obtain ⟨tables, htook, hkeys⟩ := h.exists_tables hcollector
    refine ⟨tables, htook, ?_⟩
    rw [funext hkeys]
    exact hcoherent.perm_of_returned hcollector
  case released =>
    intro hcollector
    have hended := (hcoherent.joining (.inr hcollector)).2
    refine ⟨hended, fun i run j => h.not_heldBy_worker ?_ run j⟩
    rw [hended i]
    rfl
  case goesOn =>
    intro hleft
    apply hcoherent.goesOn
    intro hcollector
    rcases hleft with hnot | ⟨i, hnot⟩
    · exact hnot hcollector
    · exact hnot ((hcoherent.joining (.inr hcollector)).2 i)
  case nearer =>
    rintro state' (hstep | ⟨i, hstep⟩)
    · exact hcoherent.nearer (move_of_stepCollector hstep)
    · exact hcoherent.nearer (move_of_stepKeyWorker hstep)
  case outside =>
    intro act state' hstep
    obtain ⟨cells, -, rfl⟩ := Option.map_eq_some_iff.mp hstep
    rfl

theorem Reachable.steps (h : state.Reachable capacity) {actors : List (KeyActor n V)}
    (hsteps : actors.foldlM step? state = some state') : state'.Reachable capacity := by
  induction actors generalizing state with
  | nil => cases hsteps; exact h
  | cons actor rest ih =>
    rw [List.foldlM_cons] at hsteps
    obtain ⟨next, hstep, hrest⟩ := Option.bind_eq_some_iff.mp hsteps
    exact ih (.step actor h hstep) hrest

/-- Room for one key, which is what the shards had before another thread wrote to both of them.
Later it empties a shard whose keys were sent. -/
theorem keys_are_gathered_once_beyond_a_stale_count :
    let cells : Cells 2 Nat :=
      fun i => if i = 0 then { table := (∅ : Table Nat).insert "a" 1 } else {}
    let other : ThreadId := { origin := 1 }
    let writes (i : Fin 2) (table : Table Nat) : List (KeyActor 2 Nat) :=
      [.outside (.lock other i .exclusive), .outside (.write other i table),
        .outside (.unlock other i .exclusive)]
    let actors : List (KeyActor 2 Nat) := [.collector, .collector] ++
      writes 0 (((∅ : Table Nat).insert "a" 1).insert "b" 2) ++
      writes 1 (((∅ : Table Nat).insert "b" 3).insert "c" 4) ++
      [.worker 1, .worker 1, .collector, .collector, .worker 0, .worker 0, .collector, .worker 0,
        .collector, .worker 0, .worker 0] ++ writes 0 ∅ ++
      [.worker 1, .collector, .worker 1, .worker 1, .collector, .collector]
    ∃ state : KeyCollection 2 Nat,
      actors.foldlM step? { cells, channel := { capacity := 1 } } = some state ∧
      state.Reachable 1 ∧ state.collector = .returned ∧ state.keys = ["b", "a", "b", "c"] ∧
      (state.cells 0).table.keys = [] ∧ state.Gathers 1 := by
  intro cells other writes actors
  have hend : (actors.foldlM step? { cells, channel := { capacity := 1 } }).map
      (fun state => (state.collector, state.keys, (state.cells 0).table.keys)) =
        some (.returned, ["b", "a", "b", "c"], []) := by
    decide +kernel
  obtain ⟨state, hsteps, hfacts⟩ := Option.map_eq_some_iff.mp hend
  simp only [Prod.mk.injEq] at hfacts
  obtain ⟨hcollector, hkeys, htable⟩ := hfacts
  have hrest : cells.AtRest := by
    intro i
    simp only [cells]
    split <;> rfl
  have hreachable : state.Reachable 1 := (Reachable.start cells hrest).steps hsteps
  exact ⟨state, hsteps, hreachable, hcollector, hkeys, htable, keys_are_gathered_once hreachable⟩

end KeyCollection

end ShardStore
