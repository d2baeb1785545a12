import ShardStore.Proofs.Calls.Scopes
import ShardStore.Proofs.Courses.Own
import ShardStore.Proofs.Linearizability
import ShardStore.Proofs.Partition

/-!
# No configuration routes out of range

However a configuration comes about, its number of shards is the last one that was asked for, or the
default if that was zero or nothing, so a store has a shard to choose. Whatever a router answers,
the remainder by that number is the place of a shard: neither taking the remainder nor going to that
place can fail, and a call about a key that unwinds was refused by its shard, or the router gave up,
or its callback did.

`Store.SetUpLike` is what one step keeps of a store: how keys are hashed, and the caller's router,
apart from its state. The number of shards is part of the type.
-/

namespace ShardStore

variable {σ S V α β : Type} {mode : Threading} {n : Nat}

/-! ## How configurations come about -/

/-- The ways to a configuration. -/
inductive Construction (σ : Type) where
  /-- A number of shards, and the defaults for all else. -/
  | new (count : UInt64)
  /-- The defaults. -/
  | default
  /-- Setter calls on the defaults. -/
  | configured (settings : List (Setting σ))
  /-- Setter calls on a builder. -/
  | built (settings : List (Setting σ))

/-- The number of shards that a setter asks for. -/
def Setting.shardCount? : Setting σ → Option UInt64
  | .shardCount count => some count
  | _ => none

/-- The last number of shards that setters ask for; zero if none does. -/
def requestedShards (settings : List (Setting σ)) : UInt64 :=
  (settings.filterMap Setting.shardCount?).getLast?.getD 0

namespace Construction

/-- The configuration that comes about. -/
def config : Construction σ → Config σ
  | .new count => Config.withShardCount {} count
  | .default => {}
  | .configured settings => Config.ofSettings settings
  | .built settings => (Builder.ofSettings settings).config

/-- The number of shards that was asked for. -/
def requested : Construction σ → UInt64
  | .new count => count
  | .default => 0
  | .configured settings => requestedShards settings
  | .built settings => requestedShards settings

end Construction

/-- What is normalised stays as it is. -/
theorem normalizeShardCount_idem (count : UInt64) :
    normalizeShardCount (normalizeShardCount count) = normalizeShardCount count :=
  if_neg (normalizeShardCount_ne_zero count)

/-- The last setter of the number of shards decides. -/
theorem Config.shardCount_ofSettings (settings : List (Setting σ)) :
    (Config.ofSettings settings).shardCount = normalizeShardCount (requestedShards settings) := by
  induction settings using List.reverseRecOn with
  | nil => rfl
  | append_singleton settings setting ih =>
    rw [ofSettings, List.foldl_append, ← ofSettings, requestedShards, List.filterMap_append]
    cases setting with
    | shardCount count =>
      have hlast : [.shardCount count].filterMap (@Setting.shardCount? σ) = [count] := rfl
      rw [hlast, List.getLast?_concat]
      rfl
    | _ =>
      rw [List.filterMap_cons_none rfl, List.filterMap_nil, List.append_nil]
      exact ih

theorem Construction.shards_config (construction : Construction σ) :
    construction.config.shards = (normalizeShardCount construction.requested).toNat := by
  refine congrArg UInt64.toNat ?_
  cases construction with
  | new count => exact normalizeShardCount_idem count
  | default => rfl
  | configured settings =>
    rw [config, Config.shardCount_ofSettings, normalizeShardCount_idem]
    rfl
  | built settings =>
    rw [config, Builder.ofSettings_config, Config.shardCount_ofSettings, normalizeShardCount_idem]
    rfl

/-! ## What a run keeps -/

/-- The caller's router, without its state. -/
def Routing.router? : Routing σ → Option (Router σ)
  | .modulo => none
  | .custom router _ => some router

/-- A question changes at most the state of the router. -/
theorem Routing.router?_route (routing : Routing σ) (hash count : UInt64) :
    (routing.route hash count).1.router? = routing.router? := by
  cases routing <;> rfl

/-- Two stores that hash alike and have the same router, if in different states. -/
structure Store.SetUpLike (store store' : Store σ V n) : Prop where
  hasher : store'.hasher = store.hasher
  router : store'.routing.router? = store.routing.router?

theorem Store.SetUpLike.refl (store : Store σ V n) : store.SetUpLike store := ⟨rfl, rfl⟩

theorem Store.SetUpLike.trans {store store' store'' : Store σ V n} (h : store.SetUpLike store')
    (h' : store'.SetUpLike store'') : store.SetUpLike store'' :=
  ⟨h'.hasher.trans h.hasher, h'.router.trans h.router⟩

theorem Action.setUpLike_perform (me : ThreadId) (action : Action n V β) (store : Store σ V n) :
    store.SetUpLike (action.perform me store).2 := by
  refine ⟨hasher_perform me action store, ?_⟩
  by_cases hshard : action.shard? = none
  · cases action with
    | route key =>
      simp only [perform]
      split <;> next heq =>
        rw [← congrArg (fun r => r.2.routing) heq]
        exact Routing.router?_route ..
    | _ => cases hshard
  · rw [routing_perform me action store hshard]

theorem Process.setUpLike_of_step? {me : ThreadId} {p p' : Process mode n S V α}
    {store store' : Store σ V n} {own own' : S}
    (hstep : p.step? me store own = some (p', store', own')) : store.SetUpLike store' := by
  induction p generalizing me own own' with
  | done => cases hstep
  | unwind => cases hstep
  | act action next _ =>
    have hperform := action.setUpLike_perform me store
    simp only [step?] at hstep
    split at hstep
    · next heq => cases hstep; rwa [heq] at hperform
    · next heq => cases hstep; rwa [heq] at hperform
    · cases hstep
  | withOwn change next _ =>
    cases hstep
    exact .refl store
  | attempt scope part next ih _ =>
    simp only [step?] at hstep
    split at hstep
    · cases hstep
      exact .refl store
    · obtain ⟨⟨part', store₁, own₁⟩, hpart, heq⟩ := Option.map_eq_some_iff.mp hstep
      cases heq
      exact ih hpart
  | onThread may fresh part next ih _ =>
    simp only [step?] at hstep
    split at hstep
    · cases hstep
      exact .refl store
    · obtain ⟨⟨part', store₁, fresh₁⟩, hpart, heq⟩ := Option.map_eq_some_iff.mp hstep
      cases heq
      exact ih hpart

theorem Threads.Reaches.setUpLike {start threads : Threads mode σ S V α n}
    (h : start.Reaches threads) : start.store.SetUpLike threads.store := by
  induction h with
  | refl => exact .refl _
  | step t _ hstep ih =>
    obtain ⟨own, course, own', course', store', -, hmoved, rfl⟩ := exists_of_step? hstep
    exact ih.trans (Process.setUpLike_of_step? hmoved)

/-! ## Why a call about a key unwinds -/

namespace Process

variable {me : ThreadId} {store : Store σ V n} {own : S} {fault : Fault}

/-- A call without a callback unwinds if the router gives up or the shard refuses it. -/
theorem cause_of_run_keyed (call : Keyed V β)
    (h : ((call.operation.process : Process mode n S V β).run me store own).1 = .unwound fault) :
    (store.route call.key).1 = .error fault ∨ fault = .reentrant := by
  rcases hroute : store.route call.key with ⟨place, routed⟩
  cases place with
  | error cause =>
    obtain ⟨rest, hrest⟩ := exists_process_eq (n := n) (S := S) mode call
    rw [hrest, run_route_bind_error me hroute] at h
    cases h
    exact .inl rfl
  | ok i =>
    refine .inr ?_
    by_cases hmark : me ∈ (routed.shard i).markers
    · rw [run_keyed_refused me call hroute hmark] at h
      cases h
      rfl
    · cases hlock : (routed.shard i).lock.grants call.access with
      | true =>
        rw [run_keyed me call hroute hmark hlock] at h
        cases h
      | false =>
        rw [run_keyed_blocked me call hroute hmark hlock] at h
        cases h

/-- An update may unwind with its callback as well. -/
theorem cause_of_run_update {key : String} {callback : Option V → Process mode n S V (V × β)}
    (h : ((update key callback).run me store own).1 = .unwound fault) :
    (store.route key).1 = .error fault ∨ fault = .reentrant ∨
      ∃ old, ∃ inside : Store σ V n, ((callback old).run me inside own).1 = .unwound fault := by
  rcases hroute : store.route key with ⟨place, routed⟩
  cases place with
  | error cause =>
    rw [update, bind_eq, run_route_bind_error me hroute] at h
    cases h
    exact .inl rfl
  | ok i =>
    refine .inr ?_
    by_cases hmark : me ∈ (routed.shard i).markers
    · rw [run_update_refused hroute hmark] at h
      cases h
      exact .inl rfl
    · cases hlock : (routed.shard i).lock.grants .exclusive with
      | true =>
        rw [run_update hroute ⟨hmark, hlock⟩] at h
        refine .inr ⟨(routed.table i)[key]?, routed.modify i (Shard.opened me .exclusive), ?_⟩
        split at h
        · cases h
        · next heq => rw [heq]; exact h
        · cases h
      | false =>
        rw [update, bind_eq, run_route_bind me hroute, bind_eq,
          run_request_bind_blocked me hmark hlock] at h
        cases h

/-- So a call about a key without a callback ends by itself only in these ways. -/
theorem cause_of_run_operation {operation : Operation V β} {key : String}
    (hkey : operation.key? = some key)
    (h : ((operation.process : Process mode n S V β).run me store own).1 = .unwound fault) :
    (store.route key).1 = .error fault ∨ fault = .reentrant := by
  cases operation with
  | set key value => cases hkey; exact cause_of_run_keyed (.set key value) h
  | setIfAbsent key value => cases hkey; exact cause_of_run_keyed (.setIfAbsent key value) h
  | get key => cases hkey; exact cause_of_run_keyed (.get key) h
  | has key => cases hkey; exact cause_of_run_keyed (.has key) h
  | remove key => cases hkey; exact cause_of_run_keyed (.remove key) h
  | pop key => cases hkey; exact cause_of_run_keyed (.pop key) h
  | shardIndex key =>
    cases hkey
    rcases hroute : store.route key with ⟨place, routed⟩
    rw [Operation.process, bind_eq] at h
    cases place with
    | error cause =>
      rw [run_route_bind_error me hroute] at h
      cases h
      exact .inl rfl
    | ok i =>
      rw [run_route_bind me hroute] at h
      cases h
  | _ => cases hkey

end Process

/-! ## The place of a key -/

/-- The word that the routing answers for a key. -/
def Store.asked (store : Store σ V n) (key : String) : Except Fault UInt64 :=
  (store.routing.route (store.hasher.hashKey key) (UInt64.ofNat n)).2

/-- A key is routed to a place where there is a shard. -/
structure Store.InRange (store : Store σ V n) (key : String) : Prop where
  /-- An answer is a place in the row of shards, and calls are sent to the shard at that place. -/
  answer : ∀ {answer : UInt64}, store.asked key = .ok answer → ∃ h : answer.toNat < n,
    store.shards.toArray[answer.toNat]? = some (store.shard ⟨answer.toNat, h⟩) ∧
      (store.route key).1 = .ok ⟨answer.toNat, h⟩
  /-- By default it is the remainder of the hash, of words as of numbers. -/
  modulo : store.routing = .modulo →
    store.asked key = .ok (store.hasher.hashKey key % UInt64.ofNat n) ∧
      (store.hasher.hashKey key % UInt64.ofNat n).toNat = (store.hasher.hashKey key).toNat % n
  /-- Otherwise it is the remainder of what the caller's router says, which alone can give up. -/
  custom : ∀ {router : Router σ} {state : σ}, store.routing = .custom router state →
    store.asked key = (router.answer state (store.hasher.hashKey key) (UInt64.ofNat n)).2.map
      (· % UInt64.ofNat n)
  /-- Who asks for the place of the key is told it. -/
  told : ∀ {mode : Threading} {S : Type} (me : ThreadId) (own : S),
    ((Program.shardIndex key : Program mode S V Nat).run me store own).1 =
      match store.asked key with
      | .ok answer => .returned answer.toNat
      | .error fault => .unwound fault
  /-- Calls about the key work on the shard that they are sent to. They unwind only if the router
  gives up or this shard refuses them. -/
  operations : ∀ {mode : Threading} {S β : Type} (operation : Operation V β),
    operation.key? = some key →
      (operation.process : Process mode n S V β).AsksFirst False key ∧
      ∀ (me : ThreadId) (own : S) (fault : Fault),
        ((operation.process : Process mode n S V β).run me store own).1 = .unwound fault →
          store.asked key = .error fault ∨ fault = .reentrant
  /-- So do updates, or their callbacks unwind. -/
  updates : ∀ {mode : Threading} {S β : Type}
    (callback : Option V → Process mode n S V (V × β)),
      (Process.update key callback).AsksFirst True key ∧
      ∀ (me : ThreadId) (own : S) (fault : Fault),
        ((Process.update key callback).run me store own).1 = .unwound fault →
          store.asked key = .error fault ∨ fault = .reentrant ∨
            ∃ old, ∃ inside : Store σ V n, ((callback old).run me inside own).1 = .unwound fault

namespace Store

/-- The router's fault is the fault of the question. -/
theorem asked_eq_error {store : Store σ V n} {key : String} {fault : Fault}
    (h : (store.route key).1 = .error fault) : store.asked key = .error fault := by
  simp only [route] at h
  rw [asked]
  generalize (store.routing.route (store.hasher.hashKey key) (UInt64.ofNat n)).2 = answer at *
  cases answer with
  | error cause => cases h; rfl
  | ok answer => cases h

/-- **Every key is routed in range**, by any store. -/
theorem inRange (store : Store σ V n) (key : String) : store.InRange key where
  answer {answer} h := by
    have hlt : answer.toNat < n := store.toNat_count ▸ Routing.toNat_lt_of_route h
    refine ⟨hlt, ?_, ?_⟩
    · rw [Vector.getElem?_toArray, Vector.getElem?_eq_getElem hlt]
      rfl
    · have hindex : store.indexOf answer = ⟨answer.toNat, hlt⟩ := Fin.ext (store.val_indexOf hlt)
      rw [asked] at h
      simp only [route, h, Except.map, hindex]
  modulo h := by
    refine ⟨?_, by rw [UInt64.toNat_mod, store.toNat_count]⟩
    rw [asked, h]
    exact modulo_eq_ok store.count_ne_zero
  custom {router state} h := by
    rw [asked, h]
    simp only [Routing.route]
    cases (router.answer state (store.hasher.hashKey key) (UInt64.ofNat n)).2 with
    | error fault => rfl
    | ok answer => exact modulo_eq_ok store.count_ne_zero
  told me own := by
    have hroute : (store.route key).1 = (store.asked key).map store.indexOf := rfl
    rw [run_shardIndex, hroute]
    cases hasked : store.asked key with
    | error fault => rfl
    | ok answer =>
      exact congrArg Outcome.returned (store.val_indexOf
        (store.toNat_count ▸ Routing.toNat_lt_of_route hasked))
  operations operation hkey := by
    refine ⟨Operation.asksFirst_process hkey, fun me own fault h => ?_⟩
    exact (Process.cause_of_run_operation hkey h).imp_left asked_eq_error
  updates callback := by
    refine ⟨Process.asksFirst_update key callback, fun me own fault h => ?_⟩
    exact (Process.cause_of_run_update h).imp_left asked_eq_error

end Store

/-! ## The statement -/

/-- **No configuration routes out of range.** Whichever way a configuration comes about, it has as
many shards as were asked for last, or the default number, and at least one. A store that is created
with it keeps this number, the hasher and the router in every run, and at every point of the run
each key is routed to the place of a shard. -/
theorem Construction.routes_in_range (construction : Construction σ)
    {start threads : Threads mode σ S V α construction.config.shards}
    (hstore : Store.ofConfig construction.config = .ok start.store) (h : start.Reaches threads) :
    0 < construction.config.shards ∧
      construction.config.shards = (normalizeShardCount construction.requested).toNat ∧
      threads.store.shards.toArray.size = construction.config.shards ∧
      threads.store.hasher = construction.config.hasher ∧
      threads.store.routing.router? = construction.config.routing.router? ∧
      ∀ key, threads.store.InRange key := by
  obtain ⟨hhasher, hrouting, -⟩ := Store.of_ofConfig hstore
  obtain ⟨hsamehasher, hsamerouter⟩ := h.setUpLike
  exact ⟨construction.config.shards_pos, construction.shards_config,
    threads.store.shards.size_toArray, hsamehasher.trans hhasher,
    hsamerouter.trans (congrArg Routing.router? hrouting), threads.store.inRange⟩

/-- Of the numbers of shards that the builder is told, the last one is zero. The router answers with
numbers far out of range, each time with another one. -/
theorem Construction.routes_in_range_far_out :
    let construction : Construction Nat := .built [.shardCount 3, .hashing .fx,
      .routing (.custom (Router.cycle [39, 0xffffffffffffffff]) 0), .shardCount 0]
    ∃ store : Store Nat Nat construction.config.shards,
      Store.ofConfig construction.config = .ok store ∧
      let start : Threads .single Nat Unit Nat Unit _ :=
        .ofPrograms store [((), Program.set "a" 1), ((), Program.set "b" 2)]
      let threads := start.follow [1, 0, 1, 1, 1, 1, 1, 1, 1, 0, 0, 0, 0, 0, 0, 0]
      start.Reaches threads ∧ threads.Ended ∧ construction.config.shards = 32 ∧
      (threads.store.table ⟨7, by decide⟩).toList = [("b", 2)] ∧
      (threads.store.table ⟨31, by decide⟩).toList = [("a", 1)] ∧
      ∀ key, threads.store.InRange key := by
  intro construction
  obtain ⟨store, hstore⟩ : ∃ store : Store Nat Nat construction.config.shards,
      Store.ofConfig construction.config = .ok store := ⟨_, rfl⟩
  refine ⟨store, hstore, ?_⟩
  intro start threads
  have hreaches : start.Reaches threads := Threads.reaches_follow start _
  obtain ⟨-, -, -, -, -, hrange⟩ := construction.routes_in_range hstore hreaches
  refine ⟨hreaches, ?_, rfl, ?_, ?_, hrange⟩
  · cases hstore
    unfold Threads.Ended
    decide +kernel
  · cases hstore
    decide +kernel
  · cases hstore
    decide +kernel

end ShardStore
