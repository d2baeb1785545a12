import ShardStore.Concurrent.Cells
import ShardStore.Concurrent.Channel

/-!
# Traversals, taken apart

How a snapshot comes about, if the system starts every worker. The thread that asks for it starts
one worker for each shard. A worker takes its shard's shared lock, makes a channel with room for
exactly the entries that are there, reports it, and then sends the entries and gives the lock back.
When every worker has reported, the asking thread puts the reports in the order of the shards,
starts the merging worker and returns. The merging worker drains the channels in that order into
one output, from which the consumer reads until it is through or stops caring.

## Shape of the model

`Traversal` is the state of one snapshot: its asking thread, its workers, its channels and its
consumer. `Scene` has the shards and any number of traversals. `Scene.step?` makes one step of one
actor, or of a thread outside, and is `none` where that actor has ended or waits. Workers read the
table of their shard at every single send; that the table stays what it was when they reported is
a matter of proof. `captured` records the table at the moment a worker takes its lock and is
otherwise not looked at.
-/

namespace ShardStore

/-- How the merged entries reach the consumer. -/
inductive Delivery where
  /-- Over a channel with room for all of them. -/
  | buffered
  /-- One at a time, from hand to hand. -/
  | handed
deriving DecidableEq, Repr

/-- A worker's report: the number of its shard, how many entries there are, and whose channel they
will come through. -/
structure Report (n : Nat) where
  index : Nat
  size : Nat
  feed : Fin n
deriving DecidableEq, Repr

namespace Report

variable {n : Nat}

/-- Puts a report into the slot with its number. -/
def place (slots : List (Option (Report n))) (report : Report n) : List (Option (Report n)) :=
  slots.set report.index (some report)

/-- The reports in the order of their slots; empty slots are passed over. -/
def arrange (slots : List (Option (Report n))) : List (Report n) :=
  slots.filterMap id

/-- The reports in the order of the shards, from reports in the order they came in. -/
def collect (reports : List (Report n)) : List (Report n) :=
  arrange (reports.foldl place (List.replicate n none))

end Report

/-- The thread that asks for a snapshot. -/
inductive Asker (n : Nat) where
  /-- It starts the worker of shard `next`, or has started all. -/
  | starting (next : Nat)
  /-- It has taken in `reported` reports. -/
  | receiving (reported : Nat) (slots : List (Option (Report n)))
  /-- It has returned a snapshot of `total` entries. -/
  | returned (total : Nat)
  /-- It has given up after `reported` reports, because no further one could come. -/
  | interrupted (reported : Nat)

/-- The worker of one shard. -/
inductive Worker where
  | absent
  | started
  /-- It holds the lock and has not reported. -/
  | locked
  /-- It holds the lock, has reported, and has sent `sent` entries. -/
  | copying (sent : Nat)
  /-- It holds the lock and its channel is closed. -/
  | closed
  | ended
deriving DecidableEq, Repr

/-- The merging worker. -/
inductive Merger (n : Nat) (V : Type) where
  | absent
  /-- It receives from the first of the channels that are left. -/
  | draining (left : List (Report n))
  /-- It has an entry in hand, from the first of the channels that are left. -/
  | sending (entry : String × V) (left : List (Report n))
  | ended

/-- The one who reads the snapshot. -/
inductive Consumer where
  | absent
  | idle
  /-- It waits for the next entry. -/
  | waiting
  /-- It has dropped the snapshot. -/
  | gone
deriving DecidableEq, Repr

/-- The state of one snapshot of a store of `n` shards. -/
structure Traversal (n : Nat) (V : Type) where
  delivery : Delivery
  asker : Asker n := .starting 0
  /-- Over which the workers report. -/
  reports : Channel (Report n) := { capacity := n }
  workers : Fin n → Worker := fun _ => .absent
  /-- Over which the workers send their entries. -/
  feeds : Fin n → Channel (String × V) := fun _ => { capacity := 0 }
  merger : Merger n V := .absent
  /-- Over which the consumer gets the entries. -/
  output : Channel (String × V) := { capacity := 0 }
  consumer : Consumer := .absent
  /-- What the consumer got, in order. -/
  received : List (String × V) := []
  /-- How often the consumer was told that there is nothing more. -/
  ends : Nat := 0
  /-- The table of each shard when its worker took the lock. -/
  captured : Fin n → Option (Table V) := fun _ => none

/-- Those who act in a traversal; the consumer may ask for an entry, take one in, or go. -/
inductive Actor (n : Nat) where
  | asker
  | worker (i : Fin n)
  | merger
  | ask
  | take
  | leave
deriving DecidableEq

namespace Traversal

variable {n : Nat} {V : Type}

/-- Closes the receiving ends of the channels that are left. -/
def dropFeeds (feeds : Fin n → Channel (String × V)) (left : List (Report n)) :
    Fin n → Channel (String × V) :=
  fun i => if left.any (·.feed = i) then (feeds i).dropReceiver else feeds i

/-- The asking thread has all reports: it starts the merging worker and returns. -/
def handOver (run : Traversal n V) (slots : List (Option (Report n))) : Traversal n V :=
  let left := Report.arrange slots
  let total := sumOf (left.map Report.size)
  { run with
    asker := .returned total
    reports := run.reports.dropReceiver
    merger := .draining left
    output := { capacity := match run.delivery with
      | .buffered => total
      | .handed => 0 }
    consumer := .idle }

/-- One step of the asking thread. -/
def stepAsker (run : Traversal n V) : Option (Traversal n V) :=
  match run.asker with
  | .starting next =>
    if h : next < n then
      some { run with
        asker := .starting (next + 1)
        workers := Function.update run.workers ⟨next, h⟩ .started
        reports := run.reports.addSender }
    else
      some { run with
        asker := .receiving 0 (List.replicate n none)
        reports := run.reports.dropSender }
  | .receiving reported slots =>
    if reported = n then some (run.handOver slots)
    else
      match run.reports.receive with
      | .item report reports =>
        some { run with asker := .receiving (reported + 1) (Report.place slots report), reports }
      | .ended =>
        some { run with
          asker := .interrupted reported
          reports := run.reports.dropReceiver
          feeds := dropFeeds run.feeds (Report.arrange slots) }
      | .waits => none
  | .returned _ => none
  | .interrupted _ => none

/-- One step of the worker of shard `i`, in the traversal number `number`. -/
def stepWorker (run : Traversal n V) (cells : Cells n V) (number : Nat) (i : Fin n) :
    Option (Cells n V × Traversal n V) :=
  let enter (worker : Worker) : Fin n → Worker := Function.update run.workers i worker
  let feed (channel : Channel (String × V)) : Fin n → Channel (String × V) :=
    Function.update run.feeds i channel
  match run.workers i with
  | .absent => none
  | .started =>
    (cells.take? (.worker number i) i .shared).map fun cells =>
      (cells, { run with
        workers := enter .locked
        captured := Function.update run.captured i (some (cells i).table) })
  | .locked =>
    let size := (cells i).table.size
    match run.reports.send { index := i, size, feed := i } with
    | .queued reports =>
      some (cells, { run with
        workers := enter (.copying 0)
        feeds := feed { capacity := size }
        reports := reports.dropSender })
    | .refused =>
      some (cells, { run with workers := enter .closed, reports := run.reports.dropSender })
    | .waits => none
  | .copying sent =>
    match (cells i).table.toList[sent]? with
    | some entry =>
      match (run.feeds i).send entry with
      | .queued channel =>
        some (cells, { run with workers := enter (.copying (sent + 1)), feeds := feed channel })
      | .refused =>
        some (cells, { run with workers := enter .closed, feeds := feed (run.feeds i).dropSender })
      | .waits => none
    | none =>
      some (cells, { run with workers := enter .closed, feeds := feed (run.feeds i).dropSender })
  | .closed =>
    some (cells.release (.worker number i) i .shared, { run with workers := enter .ended })
  | .ended => none

/-- One step of the merging worker. -/
def stepMerger (run : Traversal n V) : Option (Traversal n V) :=
  match run.merger with
  | .absent => none
  | .draining [] => some { run with merger := .ended, output := run.output.dropSender }
  | .draining (report :: left) =>
    match (run.feeds report.feed).receive with
    | .item entry channel =>
      some { run with
        merger := .sending entry (report :: left)
        feeds := Function.update run.feeds report.feed channel }
    | .ended =>
      some { run with
        merger := .draining left
        feeds := Function.update run.feeds report.feed (run.feeds report.feed).dropReceiver }
    | .waits => none
  | .sending entry left =>
    match run.output.send entry with
    | .queued output => some { run with merger := .draining left, output }
    | .refused =>
      some { run with
        merger := .ended
        feeds := dropFeeds run.feeds left
        output := run.output.dropSender }
    | .waits =>
      if run.output.capacity = 0 ∧ run.consumer = .waiting then
        some { run with
          merger := .draining left
          consumer := .idle
          received := run.received ++ [entry] }
      else none
  | .ended => none

/-- The consumer asks for the next entry. -/
def stepAsk (run : Traversal n V) : Option (Traversal n V) :=
  if run.consumer = .idle then some { run with consumer := .waiting } else none

/-- The consumer takes an entry in, or learns that there is none left. -/
def stepTake (run : Traversal n V) : Option (Traversal n V) :=
  if run.consumer = .waiting then
    match run.output.receive with
    | .item entry output =>
      some { run with consumer := .idle, received := run.received ++ [entry], output }
    | .ended => some { run with consumer := .idle, ends := run.ends + 1 }
    | .waits => none
  else none

/-- The consumer drops the snapshot. -/
def stepLeave (run : Traversal n V) : Option (Traversal n V) :=
  if run.consumer = .idle then
    some { run with consumer := .gone, output := run.output.dropReceiver }
  else none

/-- One step of an actor of the traversal number `number`. -/
def step? (run : Traversal n V) (cells : Cells n V) (number : Nat) :
    Actor n → Option (Cells n V × Traversal n V)
  | .asker => run.stepAsker.map (cells, ·)
  | .worker i => run.stepWorker cells number i
  | .merger => run.stepMerger.map (cells, ·)
  | .ask => run.stepAsk.map (cells, ·)
  | .take => run.stepTake.map (cells, ·)
  | .leave => run.stepLeave.map (cells, ·)

end Traversal

/-- The shards of a store with any number of traversals of it. -/
structure Scene (n : Nat) (V : Type) where
  cells : Cells n V
  runs : List (Traversal n V) := []

/-- What can happen in a scene. -/
inductive Happening (n : Nat) (V : Type) where
  /-- Another thread acts on the shards. -/
  | outside (act : Outside n V)
  /-- A thread asks for a snapshot. -/
  | opening (delivery : Delivery)
  /-- An actor of a traversal makes a step. -/
  | inside (run : Nat) (actor : Actor n)

namespace Scene

variable {n : Nat} {V : Type}

/-- The scene after a happening, if it can happen. -/
def step? (scene : Scene n V) : Happening n V → Option (Scene n V)
  | .outside act => (scene.cells.outside? act).map fun cells => { scene with cells }
  | .opening delivery => some { scene with runs := scene.runs ++ [{ delivery }] }
  | .inside number actor =>
    match scene.runs[number]? with
    | none => none
    | some run =>
      (run.step? scene.cells number actor).map fun (cells, run) =>
        { cells, runs := scene.runs.set number run }

/-- The scenes that can come about: from shards at rest and no traversal, by any happenings. -/
inductive Reachable : Scene n V → Prop where
  | start (cells : Cells n V) (h : cells.AtRest) : Reachable { cells }
  | step {scene scene' : Scene n V} (happening : Happening n V) (h : Reachable scene)
      (hstep : scene.step? happening = some scene') : Reachable scene'

end Scene

end ShardStore
