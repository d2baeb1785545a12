import ShardStore.Fault
import ShardStore.Stored

/-!
# Combiners

Ready-made ways to combine a stored document with a new one. Arithmetic is in words of 64 bits
with a sign and wraps around. Where a value is put inside another one, a refusing value goes in as
data.
-/

namespace ShardStore

/-- A way to combine the old value of a key, if it has one, with a new value. -/
inductive Combiner where
  /-- The new value. -/
  | new
  /-- The old value; the new one if there is none. -/
  | old
  /-- An array that tells whether there was an old value, which one, and the new one. -/
  | seen
  /-- The sum of two numbers; the new value if there are not two numbers. -/
  | add
  /-- The product, where what is no number counts as zero. -/
  | mul
  /-- Arrays one after the other, other values as a pair. -/
  | append
  /-- Unwinds. -/
  | refuse
deriving DecidableEq, Repr

namespace Combiner

/-- An integer wrapped to a word with a sign. -/
def wrap (i : Int) : Int :=
  i.bmod UInt64.size

/-- The integer of a value, if it is one and fits in a word with a sign. -/
def word? : Stored → Option Int
  | .plain (.int i) => if wrap i = i then some i else none
  | _ => none

/-- Combines an old value, if there is one, with a new value. -/
def apply : Combiner → Option Stored → Stored → Except Fault Stored
  | .new, _, given => .ok given
  | .old, held, given => .ok (held.getD given)
  | .seen, held, given =>
    .ok (.plain (.arr [.bool held.isSome, (held.map Stored.data).getD .null, given.data]))
  | .add, held, given =>
    match held.bind word?, word? given with
    | some m, some n => .ok (.plain (.int (wrap (m + n))))
    | _, _ => .ok given
  | .mul, held, given =>
    .ok (.plain (.int (wrap ((held.bind word?).getD 0 * (word? given).getD 0))))
  | .append, none, given => .ok given
  | .append, some (.plain (.arr front)), .plain (.arr back) => .ok (.plain (.arr (front ++ back)))
  | .append, some held, given => .ok (.plain (.arr [held.data, given.data]))
  | .refuse, _, _ => .error (.callback "combiner panicked")

end Combiner

end ShardStore
