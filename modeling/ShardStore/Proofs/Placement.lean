import ShardStore.Store

/-!
# Keys with a place of their own

A routing that answers from the hash and the number of shards alone gives every key one shard for
good. `Store.PlacesBy` names that shard for each key; every question to the router then names it
and leaves a router that would name it again (`PlacesBy.exists_route_eq`). Such a router may also
give up on some hashes: `Store.SendsBy` says for each key what it does, whenever it is asked.
-/

namespace ShardStore

namespace Routing

variable {σ : Type}

/-- The routing always answers, and by a rule of the hash and the number of shards. The default's
rule is the hash itself: the remainder is taken of every answer. -/
def Follows (routing : Routing σ) (rule : UInt64 → UInt64 → UInt64) : Prop :=
  match routing with
  | .modulo => ∀ hash count, rule hash count = hash
  | .custom router _ => ∀ state hash count, (router.answer state hash count).2 = .ok (rule hash count)

/-- The routing always answers, from the hash and the number of shards alone. -/
def Stateless (routing : Routing σ) : Prop :=
  ∃ rule, routing.Follows rule

theorem stateless_modulo : (modulo : Routing σ).Stateless :=
  ⟨fun hash _ => hash, fun _ _ => rfl⟩

/-- A routing that follows a rule answers by it and goes on following it. -/
theorem Follows.route {routing : Routing σ} {rule : UInt64 → UInt64 → UInt64}
    (h : routing.Follows rule) {count : UInt64} (hcount : count ≠ 0) (hash : UInt64) :
    (routing.route hash count).2 = .ok (rule hash count % count) ∧
      (routing.route hash count).1.Follows rule := by
  cases routing with
  | modulo => exact ⟨by rw [h hash count]; exact modulo_eq_ok hcount, h⟩
  | custom router state =>
    refine ⟨?_, h⟩
    have hrule := h state hash count
    simp only [Routing.route, hrule]
    exact modulo_eq_ok hcount

end Routing

namespace Store

variable {σ V : Type} {n : Nat}

/-- Every key has a shard that the router names whenever it is asked. -/
def PlacesBy (store : Store σ V n) (place : String → Fin n) : Prop :=
  ∃ rule, store.routing.Follows rule ∧ ∀ key,
    (place key).val = (rule (store.hasher.hashKey key) (UInt64.ofNat n)).toNat % n

/-- A store whose routing is stateless has a place for each key. -/
theorem exists_placesBy (store : Store σ V n) (h : store.routing.Stateless) :
    ∃ place, store.PlacesBy place := by
  obtain ⟨rule, hrule⟩ := h
  exact ⟨fun key => ⟨(rule (store.hasher.hashKey key) (UInt64.ofNat n)).toNat % n,
    Nat.mod_lt _ store.pos⟩, rule, hrule, fun _ => rfl⟩

/-- Places depend on how keys are hashed and routed only. -/
theorem PlacesBy.congr {store store' : Store σ V n} {place : String → Fin n}
    (h : store.PlacesBy place) (hhasher : store'.hasher = store.hasher)
    (hrouting : store'.routing = store.routing) : store'.PlacesBy place := by
  unfold PlacesBy
  rw [hhasher, hrouting]
  exact h

/-- The router names the key's place, and only its state may change. -/
theorem PlacesBy.exists_route_eq {store : Store σ V n} {place : String → Fin n}
    (h : store.PlacesBy place) (key : String) :
    ∃ routing, store.route key = (.ok (place key), { store with routing }) ∧
      { store with routing }.PlacesBy place := by
  obtain ⟨rule, hrule, hplace⟩ := h
  obtain ⟨hanswer, hfollows⟩ := hrule.route store.count_ne_zero (store.hasher.hashKey key)
  refine ⟨(store.routing.route (store.hasher.hashKey key) (UInt64.ofNat n)).1, ?_,
    rule, hfollows, hplace⟩
  have hindex : store.indexOf (rule (store.hasher.hashKey key) (UInt64.ofNat n) % UInt64.ofNat n) =
      place key := by
    apply Fin.ext
    rw [store.val_indexOf_mod, hplace]
  simp only [route, hanswer, Except.map, hindex]

end Store

/-! ## Routings that may give up -/

namespace Routing

variable {σ : Type}

/-- The routing answers by a rule of the hash and the number of shards, or gives up by it. -/
def AnswersBy (routing : Routing σ) (rule : UInt64 → UInt64 → Except Fault UInt64) : Prop :=
  match routing with
  | .modulo => ∀ hash count, rule hash count = .ok hash
  | .custom router _ => ∀ state hash count, (router.answer state hash count).2 = rule hash count

/-- What the routing answers depends on the hash and the number of shards alone. -/
def ByHash (routing : Routing σ) : Prop :=
  ∃ rule, routing.AnswersBy rule

theorem Stateless.byHash {routing : Routing σ} (h : routing.Stateless) : routing.ByHash := by
  obtain ⟨rule, hrule⟩ := h
  refine ⟨fun hash count => .ok (rule hash count), ?_⟩
  cases routing with
  | modulo => exact fun hash count => congrArg Except.ok (hrule hash count)
  | custom router state => exact hrule

/-- A routing that answers by a rule goes on answering by it. -/
theorem AnswersBy.route {routing : Routing σ} {rule : UInt64 → UInt64 → Except Fault UInt64}
    (h : routing.AnswersBy rule) {count : UInt64} (hcount : count ≠ 0) (hash : UInt64) :
    (routing.route hash count).2 = (rule hash count).map (· % count) ∧
      (routing.route hash count).1.AnswersBy rule := by
  cases routing with
  | modulo => exact ⟨by rw [h hash count]; exact modulo_eq_ok hcount, h⟩
  | custom router state =>
    refine ⟨?_, h⟩
    have hrule := h state hash count
    simp only [Routing.route, hrule]
    cases rule hash count with
    | error fault => rfl
    | ok index => exact modulo_eq_ok hcount

end Routing

namespace Store

variable {σ V : Type} {n : Nat}

/-- What the router says to each key whenever it is asked. -/
def SendsBy (store : Store σ V n) (send : String → Except Fault (Fin n)) : Prop :=
  ∃ rule, store.routing.AnswersBy rule ∧ ∀ key, send key =
    (rule (store.hasher.hashKey key) (UInt64.ofNat n)).map fun index =>
      store.indexOf (index % UInt64.ofNat n)

/-- The router says it, and only its state may change. -/
theorem SendsBy.exists_route_eq {store : Store σ V n} {send : String → Except Fault (Fin n)}
    (h : store.SendsBy send) (key : String) :
    ∃ routing, store.route key = (send key, { store with routing }) ∧
      { store with routing }.SendsBy send := by
  obtain ⟨rule, hrule, hsend⟩ := h
  obtain ⟨hanswer, hgoeson⟩ := hrule.route store.count_ne_zero (store.hasher.hashKey key)
  refine ⟨(store.routing.route (store.hasher.hashKey key) (UInt64.ofNat n)).1, ?_,
    rule, hgoeson, hsend⟩
  simp only [route, hanswer, hsend]
  cases rule (store.hasher.hashKey key) (UInt64.ofNat n) <;> rfl

/-- Whatever a router says from the hash and the number of shards alone, it says again. -/
theorem sendsBy_route {store : Store σ V n} (h : store.routing.ByHash) :
    store.SendsBy fun key => (store.route key).1 := by
  obtain ⟨rule, hrule⟩ := h
  refine ⟨rule, hrule, fun key => ?_⟩
  obtain ⟨hanswer, -⟩ := hrule.route store.count_ne_zero (store.hasher.hashKey key)
  simp only [route, hanswer]
  cases rule (store.hasher.hashKey key) (UInt64.ofNat n) <;> rfl

/-- It depends on how keys are hashed and routed only. -/
theorem SendsBy.congr {store store' : Store σ V n} {send : String → Except Fault (Fin n)}
    (h : store.SendsBy send) (hhasher : store'.hasher = store.hasher)
    (hrouting : store'.routing = store.routing) : store'.SendsBy send := by
  obtain ⟨rule, hrule, hsend⟩ := h
  refine ⟨rule, hrouting ▸ hrule, fun key => ?_⟩
  rw [hhasher]
  exact hsend key

end Store

end ShardStore
