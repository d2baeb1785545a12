/-!
# Faults and outcomes

A step on a store ends in one of three ways: it returns, it unwinds with a `Fault`, or it waits
for a lock that it can never be granted. Unwinding is not a result: a fault passes through every
callback that is running until somebody catches it. Waiting cannot be caught at all, which is why
it is an outcome of its own.
-/

namespace ShardStore

/-- The causes for which a step unwinds. -/
inductive Fault where
  /-- A thread asked for a shard while running a callback under that shard's own lock. -/
  | reentrant
  /-- The caller's router gave up. -/
  | router (message : String)
  /-- The caller's callback gave up. -/
  | callback (message : String)
  /-- A hash was to be reduced modulo zero shards. -/
  | remainderByZero
  /-- A sum of counters did not fit in its word. -/
  | additionOverflow
  /-- A table was to be created with room for more entries than memory can address. -/
  | capacityOverflow
deriving DecidableEq, Repr, Inhabited

/-- The text reported for a fault. -/
def Fault.message : Fault → String
  | .reentrant =>
    "re-entrant access to a shard from inside its own upsert/iter_cb callback; " ++
      "this would deadlock"
  | .router message => message
  | .callback message => message
  | .remainderByZero => "attempt to calculate the remainder with a divisor of zero"
  | .additionOverflow => "attempt to add with overflow"
  | .capacityOverflow => "Hash table capacity overflow"

/-- How a step ends. -/
inductive Outcome (α : Type) where
  /-- The step returned a value. -/
  | returned (value : α)
  /-- The step unwound. -/
  | unwound (fault : Fault)
  /-- The step waits for a lock and has not ended. -/
  | blocked
deriving DecidableEq, Repr

/-- The result of a step that did not wait. -/
def Outcome.result? {α : Type} : Outcome α → Option (Except Fault α)
  | .returned value => some (.ok value)
  | .unwound fault => some (.error fault)
  | .blocked => none

end ShardStore
