import ShardStore.Fault
import ShardStore.Hash
import ShardStore.Text.Record

/-!
# Routing of hashes to shards

A routing turns the hash of a key and the number of shards into a shard index. The default takes
the remainder. A caller's own router is a state machine: every call may change its state, and may
give up instead of answering. Whatever number it answers is reduced modulo the number of shards,
so that no router can leave the range.

## Shape of a call

`Routing.route` makes one call and returns the routing with the state that the call left. This is
the only place where a router is asked, so "once per keyed operation" is a statement about who
calls `route`.
-/

namespace ShardStore

/-- A caller's rule for choosing a shard, with its state of type `σ`. -/
structure Router (σ : Type) where
  /-- Answers one call, given the state, the hash of the key and the number of shards. -/
  answer : σ → UInt64 → UInt64 → σ × Except Fault UInt64

/-- The remainder of a hash, refused when there are no shards. -/
def modulo (hash count : UInt64) : Except Fault UInt64 :=
  if count = 0 then .error .remainderByZero else .ok (hash % count)

/-- How a store chooses shards. -/
inductive Routing (σ : Type) where
  /-- The remainder of the hash. -/
  | modulo
  /-- The caller's router and the state it is in. -/
  | custom (router : Router σ) (state : σ)

namespace Routing

variable {σ : Type}

instance : Inhabited (Routing σ) := ⟨.modulo⟩

/-- Asks for the shard of a hash, once. -/
def route : Routing σ → UInt64 → UInt64 → Routing σ × Except Fault UInt64
  | .modulo, hash, count => (.modulo, ShardStore.modulo hash count)
  | .custom router state, hash, count =>
    let (state', answer) := router.answer state hash count
    (.custom router state', answer >>= fun index => ShardStore.modulo index count)

/-- The description of a routing; a caller's router is opaque. -/
def text : Routing σ → RecordText
  | .modulo => .atom "RoutingConfig::Default"
  | .custom _ _ => .atom "RoutingConfig::Custom(...)"

end Routing

theorem modulo_eq_ok {hash count : UInt64} (h : count ≠ 0) :
    modulo hash count = .ok (hash % count) :=
  if_neg h

/-- A remainder is below the number of shards. -/
theorem toNat_lt_of_modulo_eq_ok {hash count index : UInt64} (h : modulo hash count = .ok index) :
    index.toNat < count.toNat := by
  unfold modulo at h
  split at h
  · cases h
  · next hc =>
    cases h
    rw [UInt64.toNat_mod]
    exact Nat.mod_lt _ (Nat.pos_of_ne_zero fun h0 => hc (UInt64.toNat_inj.mp h0))

/-- **Every answer is in range**, whatever the router says. -/
theorem Routing.toNat_lt_of_route {σ : Type} {routing : Routing σ} {hash count index : UInt64}
    (h : (routing.route hash count).2 = .ok index) : index.toNat < count.toNat := by
  cases routing with
  | modulo => exact toNat_lt_of_modulo_eq_ok h
  | custom router state =>
    simp only [Routing.route] at h
    cases ha : (router.answer state hash count).2 with
    | error fault => rw [ha] at h; cases h
    | ok answer => rw [ha] at h; exact toNat_lt_of_modulo_eq_ok h

end ShardStore
