import ShardStore.Concurrent.Cells
import ShardStore.Concurrent.Channel

/-!
# Collecting keys, taken apart

How the keys are listed, if the system starts every worker. The collecting thread starts one
worker for each shard, all of them sending into one channel, and reads the channel until every
sender is gone. A worker takes its shard's shared lock, sends each key and gives the lock back.
The room of the channel is a count that was taken before, so it may be too small or none at all by
now; the list is handed out only after every worker has ended.
-/

namespace ShardStore

/-- The worker of one shard. -/
inductive KeyWorker where
  | absent
  | started
  /-- It holds the lock and has sent `sent` keys. -/
  | sending (sent : Nat)
  /-- It has given the lock back. -/
  | released
  | ended
deriving DecidableEq, Repr

/-- The collecting thread. -/
inductive Collector where
  /-- It starts the worker of shard `next`, or has started all. -/
  | starting (next : Nat)
  /-- It reads keys. -/
  | receiving
  /-- It waits for the workers to end. -/
  | joining
  | returned
deriving DecidableEq, Repr

/-- The state of one collection on a store of `n` shards. -/
structure KeyCollection (n : Nat) (V : Type) where
  cells : Cells n V
  collector : Collector := .starting 0
  workers : Fin n → KeyWorker := fun _ => .absent
  channel : Channel String
  /-- The keys read so far, in order. -/
  keys : List String := []
  /-- The keys of each shard when its worker took the lock. -/
  captured : Fin n → Option (List String) := fun _ => none

/-- Those who act in a collection. -/
inductive KeyActor (n : Nat) (V : Type) where
  | collector
  | worker (i : Fin n)
  | outside (act : Outside n V)

namespace KeyCollection

variable {n : Nat} {V : Type}

/-- One step of the collecting thread. -/
def stepCollector (state : KeyCollection n V) : Option (KeyCollection n V) :=
  match state.collector with
  | .starting next =>
    if h : next < n then
      some { state with
        collector := .starting (next + 1)
        workers := Function.update state.workers ⟨next, h⟩ .started
        channel := state.channel.addSender }
    else some { state with collector := .receiving, channel := state.channel.dropSender }
  | .receiving =>
    match state.channel.receive with
    | .item key channel => some { state with keys := state.keys ++ [key], channel }
    | .ended => some { state with collector := .joining, channel := state.channel.dropReceiver }
    | .waits => none
  | .joining =>
    if ∀ i, state.workers i = .ended then some { state with collector := .returned } else none
  | .returned => none

/-- One step of the worker of shard `i`. -/
def stepWorker (state : KeyCollection n V) (i : Fin n) : Option (KeyCollection n V) :=
  let enter (worker : KeyWorker) : Fin n → KeyWorker := Function.update state.workers i worker
  let released : KeyCollection n V :=
    { state with cells := state.cells.release (.worker 0 i) i .shared, workers := enter .released }
  match state.workers i with
  | .absent => none
  | .started =>
    (state.cells.take? (.worker 0 i) i .shared).map fun cells =>
      { state with
        cells
        workers := enter (.sending 0)
        captured := Function.update state.captured i (some (cells i).table.keys) }
  | .sending sent =>
    match (state.cells i).table.keys[sent]? with
    | some key =>
      match state.channel.send key with
      | .queued channel => some { state with workers := enter (.sending (sent + 1)), channel }
      | .refused => some released
      | .waits =>
        if state.channel.capacity = 0 ∧ state.collector = .receiving then
          some { state with workers := enter (.sending (sent + 1)), keys := state.keys ++ [key] }
        else none
    | none => some released
  | .released => some { state with workers := enter .ended, channel := state.channel.dropSender }
  | .ended => none

/-- The state after a step of an actor, if it has not ended and does not wait. -/
def step? (state : KeyCollection n V) : KeyActor n V → Option (KeyCollection n V)
  | .collector => state.stepCollector
  | .worker i => state.stepWorker i
  | .outside act => (state.cells.outside? act).map fun cells => { state with cells }

/-- The states that a collection with room for `capacity` keys can come to, from shards at rest.
Threads outside may act from the start, so any contents and any holds are covered. -/
inductive Reachable (capacity : Nat) : KeyCollection n V → Prop where
  | start (cells : Cells n V) (h : cells.AtRest) :
      Reachable capacity { cells, channel := { capacity } }
  | step {state state' : KeyCollection n V} (actor : KeyActor n V) (h : Reachable capacity state)
      (hstep : state.step? actor = some state') : Reachable capacity state'

end KeyCollection

end ShardStore
