import ShardStore.Fault
import ShardStore.Text.Record

/-!
# Tallies

What a shard counts about itself. Counters are words of 64 bits: they start at zero, grow by one
for each event and would wrap around after `2 ^ 64` events. Only `Tally.total` adds counters
up, and it refuses a sum that does not fit.
-/

namespace ShardStore

/-- What is counted. -/
inductive Counter where
  /-- Look-ups that were answered. -/
  | reads
  /-- Insertions and overwrites. -/
  | writes
  /-- Removals of a key that was there. -/
  | removes
  /-- Requests for the lock that passed the check for re-entrant access. -/
  | acquisitions
deriving DecidableEq, Repr

/-- The counters of one shard. -/
structure Tally where
  reads : UInt64 := 0
  writes : UInt64 := 0
  removes : UInt64 := 0
  acquisitions : UInt64 := 0
  /-- Time spent waiting for the lock; waits are not timed here, so it stays at zero. -/
  waitNanos : UInt64 := 0
deriving DecidableEq, Repr, Inhabited

namespace Tally

/-- Counts one event. -/
def bump (tally : Tally) : Counter → Tally
  | .reads => { tally with reads := tally.reads + 1 }
  | .writes => { tally with writes := tally.writes + 1 }
  | .removes => { tally with removes := tally.removes + 1 }
  | .acquisitions => { tally with acquisitions := tally.acquisitions + 1 }

/-- The value of a counter. -/
def get (tally : Tally) : Counter → UInt64
  | .reads => tally.reads
  | .writes => tally.writes
  | .removes => tally.removes
  | .acquisitions => tally.acquisitions

theorem get_bump (tally : Tally) (counted counter : Counter) :
    (tally.bump counted).get counter =
      if counter = counted then tally.get counter + 1 else tally.get counter := by
  cases counted <;> cases counter <;> rfl

end Tally

/-- A sum of two words, refused when it does not fit in a word. -/
def checkedAdd (m n : UInt64) : Except Fault UInt64 :=
  if m.toNat + n.toNat < UInt64.size then .ok (m + n) else .error .additionOverflow

/-- Reads, writes and removes together. -/
def Tally.total (tally : Tally) : Except Fault UInt64 := do
  checkedAdd (← checkedAdd tally.reads tally.writes) tally.removes

/-- The description of a tally. -/
def Tally.text (tally : Tally) : RecordText :=
  .fields "ShardOps" [
    ("reads", .ofNat tally.reads.toNat),
    ("writes", .ofNat tally.writes.toNat),
    ("removes", .ofNat tally.removes.toNat),
    ("lock_acquisitions", .ofNat tally.acquisitions.toNat),
    ("lock_wait_nanos", .ofNat tally.waitNanos.toNat)]

end ShardStore
