import ShardStore.Routing

/-!
# Stock routers

Ready-made routers. All but `cycle` answer from the hash and the number of shards alone; `cycle`
deals its list out in turn, one element a call, whatever the key.
-/

namespace ShardStore.Router

variable {σ : Type}

/-- A router that answers from the hash and the number of shards alone. -/
def ofFunction (answer : UInt64 → UInt64 → Except Fault UInt64) : Router σ where
  answer state hash count := (state, answer hash count)

/-- Always the same index. -/
def fixed (index : UInt64) : Router σ :=
  ofFunction fun _ _ => .ok index

/-- The number of shards itself, which is just out of range. -/
def shardCount : Router σ :=
  ofFunction fun _ count => .ok count

/-- The hash itself. -/
def hash : Router σ :=
  ofFunction fun hash _ => .ok hash

/-- The hash shifted to the right. -/
def shift (amount : UInt64) : Router σ :=
  ofFunction fun hash _ => .ok (hash >>> amount)

/-- The remainder of the hash, counted from the last shard down. -/
def mirror : Router σ :=
  ofFunction fun hash count => .ok (count - 1 - hash % count)

/-- Looks up the remainder of a number by the length of a list. -/
def pick (indexes : List UInt64) (n : Nat) : Except Fault UInt64 :=
  match indexes[n % indexes.length]? with
  | some index => .ok index
  | none => .error .remainderByZero

/-- The list's element at the remainder of the hash. -/
def table (indexes : List UInt64) : Router σ :=
  ofFunction fun hash _ => pick indexes hash.toNat

/-- The list's elements in turn. The state is the number of calls made so far. -/
def cycle (indexes : List UInt64) : Router Nat where
  answer calls _ _ := (calls + 1, pick indexes calls)

/-- Gives up on every call. -/
def refuse (message : String) : Router σ :=
  ofFunction fun _ _ => .error (.router message)

end ShardStore.Router
