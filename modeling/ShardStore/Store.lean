import ShardStore.Config
import ShardStore.Shard

/-!
# Stores

A store is a fixed row of shards with a hasher and a routing. The number of shards is part of the
type, so it cannot change while the store is used, and a shard index that is in range stays so.
-/

namespace ShardStore

/-- A store of `n` shards with values of type `V`, whose router keeps a state of type `σ`. -/
structure Store (σ V : Type) (n : Nat) where
  /-- The shards, in order. -/
  shards : Vector (Shard V) n
  /-- How keys are hashed. -/
  hasher : Hasher
  /-- How shards are chosen. -/
  routing : Routing σ
  /-- There is a shard for every key. -/
  pos : 0 < n
  /-- The number of shards is a word. -/
  fits : n < UInt64.size

namespace Store

variable {σ V : Type} {n : Nat}

/-- The bytes that a value takes in a table, which holds its address. -/
def valueWidth : Nat := 8

/-- An empty store with the given settings. Refused when its tables are to have room for more
entries than can be addressed. -/
def ofConfig (config : Config σ) : Except Fault (Store σ V config.shards) := do
  if let some capacity := config.capacity then
    checkCapacity (keyWidth + valueWidth) capacity
  return {
    shards := Vector.replicate config.shards {}
    hasher := config.hasher
    routing := config.routing
    pos := config.shards_pos
    fits := config.shards_lt }

/-- The shard at an index. -/
def shard (store : Store σ V n) (i : Fin n) : Shard V :=
  store.shards[i]

/-- The store with one shard changed. -/
def modify (store : Store σ V n) (i : Fin n) (change : Shard V → Shard V) : Store σ V n :=
  { store with shards := ⟨store.shards.toArray.modify i change, by simp⟩ }

theorem shard_modify (store : Store σ V n) (i j : Fin n) (change : Shard V → Shard V) :
    (store.modify i change).shard j =
      if i = j then change (store.shard j) else store.shard j := by
  simp only [shard, modify, Fin.getElem_fin, Vector.getElem_mk, Array.getElem_modify, Fin.ext_iff]
  rfl

@[simp] theorem shard_modify_self (store : Store σ V n) (i : Fin n)
    (change : Shard V → Shard V) : (store.modify i change).shard i = change (store.shard i) := by
  rw [shard_modify, if_pos rfl]

theorem shard_modify_ne (store : Store σ V n) {i j : Fin n} (h : i ≠ j)
    (change : Shard V → Shard V) : (store.modify i change).shard j = store.shard j := by
  rw [shard_modify, if_neg h]

@[simp] theorem hasher_modify (store : Store σ V n) (i : Fin n) (change : Shard V → Shard V) :
    (store.modify i change).hasher = store.hasher := rfl

@[simp] theorem routing_modify (store : Store σ V n) (i : Fin n) (change : Shard V → Shard V) :
    (store.modify i change).routing = store.routing := rfl

/-- The table of a shard. -/
def table (store : Store σ V n) (i : Fin n) : Table V :=
  (store.shard i).table

/-- All entries, shard by shard. -/
def entries (store : Store σ V n) : List (String × V) :=
  (List.finRange n).flatMap fun i => (store.table i).toList

/-- Nobody holds a lock and no callback is running. -/
def AtRest (store : Store σ V n) : Prop :=
  ∀ i, (store.shard i).AtRest

/-- A new store has the hasher and the routing of its settings, and new shards. -/
theorem of_ofConfig {config : Config σ} {store : Store σ V config.shards}
    (h : ofConfig config = .ok store) :
    store.hasher = config.hasher ∧ store.routing = config.routing ∧ ∀ i, store.shard i = {} := by
  unfold ofConfig at h
  cases hcapacity : config.capacity with
  | none =>
    rw [hcapacity] at h
    cases h
    exact ⟨rfl, rfl, fun i => Vector.getElem_replicate i.isLt⟩
  | some capacity =>
    rw [hcapacity] at h
    cases hcheck : checkCapacity (keyWidth + valueWidth) capacity with
    | error fault => simp only [hcheck] at h; cases h
    | ok _ =>
      simp only [hcheck] at h
      cases h
      exact ⟨rfl, rfl, fun i => Vector.getElem_replicate i.isLt⟩

/-- A new store is at rest. -/
theorem atRest_of_ofConfig {config : Config σ} {store : Store σ V config.shards}
    (h : ofConfig config = .ok store) : store.AtRest := fun i => by
  rw [(of_ofConfig h).2.2 i]
  exact Shard.atRest_default

/-- An answer of the routing as an index of this store. Answers are in range already, so nothing
is lost by the reduction. -/
def indexOf (store : Store σ V n) (answer : UInt64) : Fin n :=
  ⟨answer.toNat % n, Nat.mod_lt _ store.pos⟩

theorem val_indexOf (store : Store σ V n) {answer : UInt64} (h : answer.toNat < n) :
    (store.indexOf answer).val = answer.toNat :=
  Nat.mod_eq_of_lt h

/-- The number of shards fits in a word. -/
theorem toNat_count (store : Store σ V n) : (UInt64.ofNat n).toNat = n :=
  UInt64.toNat_ofNat_of_lt' store.fits

theorem count_ne_zero (store : Store σ V n) : UInt64.ofNat n ≠ 0 := by
  intro hzero
  have hpos := store.pos
  rw [← store.toNat_count, hzero] at hpos
  exact absurd hpos (by decide)

/-- An answer that was reduced by the number of shards as a word is reduced as a number. -/
theorem val_indexOf_mod (store : Store σ V n) (answer : UInt64) :
    (store.indexOf (answer % UInt64.ofNat n)).val = answer.toNat % n := by
  simp only [indexOf, UInt64.toNat_mod, store.toNat_count, Nat.mod_mod]

/-- Hashes a key and asks the routing for its shard, once. -/
def route (store : Store σ V n) (key : String) : Except Fault (Fin n) × Store σ V n :=
  let (routing, answer) := store.routing.route (store.hasher.hashKey key) (UInt64.ofNat n)
  (answer.map store.indexOf, { store with routing })

/-- By default a key's shard is the remainder of its hash. -/
theorem route_of_modulo {store : Store σ V n} (h : store.routing = .modulo) (key : String) :
    store.route key =
      (.ok ⟨(store.hasher.hashKey key).toNat % n, Nat.mod_lt _ store.pos⟩, store) := by
  have hroute : store.routing.route (store.hasher.hashKey key) (UInt64.ofNat n) =
      (store.routing, .ok (store.hasher.hashKey key % UInt64.ofNat n)) := by
    rw [h, Routing.route, modulo_eq_ok store.count_ne_zero]
  rw [route, hroute]
  exact congrArg (fun i => (Except.ok i, store)) (Fin.ext (store.val_indexOf_mod _))

/-- The description of a store. -/
def text (store : Store σ V n) : RecordText :=
  .fields "ShardedMap" [
    ("shard_count", .ofNat n),
    ("hash", .atom store.hasher.name),
    ("routing", store.routing.text)]

end Store

end ShardStore
