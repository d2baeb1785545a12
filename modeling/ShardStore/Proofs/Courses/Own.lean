import ShardStore.Process.Frame
import ShardStore.Program

/-!
# What a course does itself

`Process.Only` speaks about the actions that are a course's own: all but those of the callbacks that
it runs. A call about a key starts with the one question it has for the router, and all else it does
is about the shard that the router named (`Process.AsksFirst`). A whole-map call has no question for
the router, and leaves every table alone.
-/

namespace ShardStore

namespace Store

variable {σ V : Type} {n : Nat} {store store' store'' : Store σ V n}

/-- Two stores that hash and route alike and have the same tables. -/
structure Alike (store store' : Store σ V n) : Prop where
  hasher : store'.hasher = store.hasher
  routing : store'.routing = store.routing
  table : ∀ i, store'.table i = store.table i

theorem Alike.refl (store : Store σ V n) : store.Alike store := ⟨rfl, rfl, fun _ => rfl⟩

theorem Alike.trans (h : store.Alike store') (h' : store'.Alike store'') : store.Alike store'' :=
  ⟨h'.hasher.trans h.hasher, h'.routing.trans h.routing, fun i => (h'.table i).trans (h.table i)⟩

/-- A change of one shard that keeps its table. -/
theorem alike_modify (store : Store σ V n) (i : Fin n) {change : Shard V → Shard V}
    (h : (change (store.shard i)).table = store.table i) : store.Alike (store.modify i change) := by
  refine ⟨rfl, rfl, fun j => ?_⟩
  rw [table, shard_modify]
  split
  · next hij => subst hij; exact h
  · rfl

end Store

namespace Action

variable {σ V β : Type} {n : Nat}

/-- Whether an action replaces a table. -/
def IsPut : Action n V β → Prop
  | .put _ _ => True
  | _ => False

/-- An action that asks no router and replaces no table. -/
def Reads (action : Action n V β) : Prop :=
  action.shard? ≠ none ∧ ¬action.IsPut

/-- Only a put replaces a table. -/
theorem table_perform (me : ThreadId) (action : Action n V β) (store : Store σ V n)
    (h : ¬action.IsPut) (i : Fin n) : (action.perform me store).2.table i = store.table i := by
  cases action with
  | route key => exact congrArg Shard.table (shard_perform me (.route key) store nofun)
  | put j table => exact (h trivial).elim
  | check j => simp only [perform]; split <;> rfl
  | acquire j access =>
    simp only [perform]
    split
    · exact (store.alike_modify j rfl).table i
    · rfl
  | load j => rfl
  | counted j counter => rfl
  | _ j => exact (store.alike_modify j rfl).table i

end Action

namespace Process

variable {σ S V α β γ : Type} {mode : Threading} {n : Nat}

/-- What the course does itself is of a certain kind. Unless `callbacks`, it runs no callback. -/
def Only (callbacks : Prop) (P : (β : Type) → Action n V β → Prop) :
    {α : Type} → Process mode n S V α → Prop
  | _, .done _ => True
  | _, .unwind _ => True
  | _, @act _ _ _ _ _ β action next => P β action ∧ ∀ b, (next b).Only callbacks P
  | _, .withOwn _ next => ∀ b, (next b).Only callbacks P
  | _, .attempt none part next =>
    part.Only callbacks P ∧ ∀ result, (next result).Only callbacks P
  | _, .attempt (some _) _ next => callbacks ∧ ∀ result, (next result).Only callbacks P
  | _, .onThread _ _ part next =>
    part.Only callbacks P ∧ ∀ result, (next result).Only callbacks P

variable {callbacks callbacks' : Prop} {P Q : (β : Type) → Action n V β → Prop}

/-- What is of one kind is of a wider kind. -/
theorem Only.mono {p : Process mode n S V α} (h : p.Only callbacks P)
    (hcallbacks : callbacks → callbacks') (hPQ : ∀ β (action : Action n V β), P β action → Q β action) :
    p.Only callbacks' Q := by
  induction p with
  | done => trivial
  | unwind => trivial
  | act action next ih => exact ⟨hPQ _ _ h.1, fun b => ih b (h.2 b)⟩
  | withOwn change next ih => exact fun b => ih b (h b)
  | attempt scope part next ihpart ih =>
    cases scope with
    | none => exact ⟨ihpart h.1, fun result => ih result (h.2 result)⟩
    | some i => exact ⟨hcallbacks h.1, fun result => ih result (h.2 result)⟩
  | onThread may own part next ihpart ih =>
    exact ⟨ihpart h.1, fun result => ih result (h.2 result)⟩

theorem Only.bind {p : Process mode n S V α} {f : α → Process mode n S V β}
    (h : p.Only callbacks P) (hf : ∀ a, (f a).Only callbacks P) : (p.bind f).Only callbacks P := by
  induction p with
  | done value => exact hf value
  | unwind => trivial
  | act action next ih => exact ⟨h.1, fun b => ih b (h.2 b) hf⟩
  | withOwn change next ih => exact fun b => ih b (h b) hf
  | attempt scope part next _ ih =>
    cases scope with
    | none => exact ⟨h.1, fun result => ih result (h.2 result) hf⟩
    | some i => exact ⟨h.1, fun result => ih result (h.2 result) hf⟩
  | onThread may own part next _ ih => exact ⟨h.1, fun result => ih result (h.2 result) hf⟩

theorem only_perform {action : Action n V β} (h : P β action) :
    (perform action : Process mode n S V β).Only callbacks P :=
  ⟨h, fun _ => trivial⟩

theorem only_mapM {f : γ → Process mode n S V β} (h : ∀ a, (f a).Only callbacks P)
    (list : List γ) : (list.mapM f).Only callbacks P := by
  induction list with
  | nil => trivial
  | cons a list ih =>
    rw [List.mapM_cons]
    exact (h a).bind fun b => ih.bind fun bs => trivial

/-! ## Requests, scopes and calls -/

/-- An action about shard `i`. -/
abbrev About (i : Fin n) : (β : Type) → Action n V β → Prop :=
  fun _ action => action.shard? = some i

/-- An action about shard `i` that does not replace its table. -/
abbrev AboutReading (i : Fin n) : (β : Type) → Action n V β → Prop :=
  fun _ action => action.shard? = some i ∧ ¬action.IsPut

/-- An action that reads. -/
abbrev Reading : (β : Type) → Action n V β → Prop :=
  fun _ action => action.Reads

/-- What is about one shard and reads, reads. -/
theorem Only.reading {p : Process mode n S V α} {i : Fin n}
    (h : p.Only callbacks (AboutReading i)) : p.Only callbacks Reading :=
  h.mono id fun _ _ hP => ⟨by rw [hP.1]; exact Option.some_ne_none i, hP.2⟩

theorem Only.about {p : Process mode n S V α} {i : Fin n}
    (h : p.Only callbacks (AboutReading i)) : p.Only callbacks (About i) :=
  h.mono id fun _ _ hP => hP.1

theorem only_enter (i : Fin n) (access : Access) :
    (enter i access : Process mode n S V Unit).Only callbacks (AboutReading i) :=
  (only_perform ⟨rfl, id⟩).bind fun _ => only_perform ⟨rfl, id⟩

theorem only_request (i : Fin n) (access : Access) :
    (request i access : Process mode n S V Unit).Only callbacks (AboutReading i) :=
  (only_perform ⟨rfl, id⟩).bind fun _ => only_enter i access

theorem only_collect (i : Fin n) :
    (collect i : Process mode n S V (Table V)).Only callbacks (AboutReading i) :=
  (only_enter i .shared).bind fun _ => (only_perform ⟨rfl, id⟩).bind fun _ =>
    (only_perform ⟨rfl, id⟩).bind fun _ => trivial

theorem only_capture (i : Fin n) :
    (capture i : Process mode n S V (Table V)).Only callbacks (AboutReading i) :=
  (only_perform ⟨rfl, id⟩).bind fun _ => only_collect i

theorem only_captureAll :
    (captureAll : Process mode n S V (List (Table V))).Only callbacks Reading :=
  only_mapM (fun i => (only_capture i).reading) _

theorem only_checkAll : (checkAll : Process mode n S V Unit).Only callbacks Reading := by
  have hlist (list : List (Fin n)) :
      (list.forM fun i => (perform (.check i) : Process mode n S V Unit)).Only callbacks
        Reading := by
    induction list with
    | nil => trivial
    | cons i list ih =>
      exact (only_perform ⟨Option.some_ne_none i, id⟩).bind fun _ => ih
  exact hlist _

theorem only_collectAll :
    (collectAll : Process mode n S V (List (Table V))).Only callbacks Reading :=
  only_checkAll.bind fun _ => only_mapM (fun i => (only_collect i).reading) _

theorem only_underMark (i : Fin n) (access : Access) (callback : Process mode n S V β) :
    (underMark i access callback).Only True (AboutReading i) := by
  refine (only_perform ⟨rfl, id⟩).bind fun _ => ⟨trivial, fun result => ?_⟩
  cases result with
  | ok b => exact (only_perform ⟨rfl, id⟩).bind fun _ => trivial
  | error fault =>
    exact (only_perform ⟨rfl, id⟩).bind fun _ => (only_perform ⟨rfl, id⟩).bind fun _ => trivial

/-- A visit asks no router and replaces no table, whatever its callbacks do. -/
theorem only_visit (callback : String → V → Process mode n S V β) :
    (visit callback).Only True Reading := by
  have hshard (i : Fin n) : (visitShard callback i).Only True (AboutReading i) :=
    (only_request i .shared).bind fun _ => (only_perform ⟨rfl, id⟩).bind fun _ =>
      (only_underMark i .shared _).bind fun _ => (only_perform ⟨rfl, id⟩).bind fun _ => trivial
  exact (only_mapM (fun i => (hshard i).reading) _).bind fun _ => trivial

/-- The course asks the router for one key before all else, once, and all else that it does itself
is about the shard that the router names. -/
def AsksFirst (callbacks : Prop) (key : String) (p : Process mode n S V α) : Prop :=
  ∃ rest, p = (perform (.route key)).bind rest ∧ ∀ i, (rest i).Only callbacks (About i)

theorem asksFirst_update (key : String) (callback : Option V → Process mode n S V (V × β)) :
    (update key callback).AsksFirst True key := by
  refine ⟨_, rfl, fun i => ?_⟩
  refine (only_request i .exclusive).about.bind fun _ => ?_
  refine (only_perform rfl).bind fun table => ?_
  refine (only_underMark i .exclusive _).about.bind fun stored => ?_
  exact (only_perform rfl).bind fun _ => (only_perform rfl).bind fun _ =>
    (only_perform rfl).bind fun _ => trivial

/-- A router that gives up ends a call before it has touched anything. -/
theorem AsksFirst.run_of_error {p : Process mode n S V α} {key : String}
    (h : p.AsksFirst callbacks key) {store store' : Store σ V n} {fault : Fault}
    (hroute : store.route key = (.error fault, store')) (me : ThreadId) (own : S) :
    p.run me store own = (.unwound fault, store', own) ∧ ∀ i, store'.shard i = store.shard i := by
  obtain ⟨rest, rfl, -⟩ := h
  refine ⟨?_, fun i => ?_⟩
  · simp only [run_perform_bind, Action.perform, hroute]
  · rw [Store.shard, ← congrArg (fun r => r.2.shards) hroute, Action.shards_route, Store.shard]

/-- A course that only reads leaves the router and all tables as they are. -/
theorem Only.run_reading {p : Process mode n S V α} (h : p.Only False Reading) (me : ThreadId)
    (store : Store σ V n) (own : S) : store.Alike (p.run me store own).2.1 := by
  induction p generalizing me store own with
  | done => exact .refl store
  | unwind => exact .refl store
  | act action next ih =>
    have hact : store.Alike (action.perform me store).2 := ⟨action.hasher_perform me store,
      action.routing_perform me store h.1.1, action.table_perform me store h.1.2⟩
    simp only [run]
    split
    · next b store' heq => rw [heq] at hact; exact hact.trans (ih b (h.2 b) me store' own)
    · next heq => rw [heq] at hact; exact hact
    · next heq => rw [heq] at hact; exact hact
  | withOwn change next ih => exact ih _ (h _) me store _
  | attempt scope part next ihpart ih =>
    cases scope with
    | none =>
      have hpart := ihpart h.1 me store own
      simp only [run]
      split
      · next heq => rw [heq] at hpart; exact hpart.trans (ih _ (h.2 _) me _ _)
      · next heq => rw [heq] at hpart; exact hpart.trans (ih _ (h.2 _) me _ _)
      · next heq => rw [heq] at hpart; exact hpart
    | some i => exact h.1.elim
  | onThread may fresh part next ihpart ih =>
    have hpart := ihpart h.1 me.child store fresh
    simp only [run]
    split
    · next heq => rw [heq] at hpart; exact hpart.trans (ih _ (h.2 _) me _ _)
    · next heq => rw [heq] at hpart; exact hpart.trans (ih _ (h.2 _) me _ _)
    · next heq => rw [heq] at hpart; exact hpart

end Process

namespace Operation

open Process

variable {S V β : Type} {mode : Threading} {n : Nat}

/-- The key that an operation is about, if it is about one. -/
def key? : Operation V β → Option String
  | .set key _ => some key
  | .setIfAbsent key _ => some key
  | .get key => some key
  | .has key => some key
  | .remove key => some key
  | .pop key => some key
  | .shardIndex key => some key
  | _ => none

theorem asksFirst_lookup (key : String) :
    (lookup key : Process mode n S V (Option V)).AsksFirst False key :=
  ⟨_, rfl, fun i => (only_capture i).about.bind fun _ => (only_perform rfl).bind fun _ => trivial⟩

theorem asksFirst_removal (key : String) :
    (removal key : Process mode n S V (Option V)).AsksFirst False key := by
  refine ⟨_, rfl, fun i => ?_⟩
  refine (only_request i .exclusive).about.bind fun _ => (only_perform rfl).bind fun table => ?_
  refine (only_perform rfl).bind fun _ => (only_perform rfl).bind fun _ => ?_
  simp only
  split
  · exact (only_perform rfl).bind fun _ => trivial
  · trivial

theorem AsksFirst.bind_pure {α : Type} {p : Process mode n S V β} {callbacks : Prop} {key : String}
    (h : p.AsksFirst callbacks key) (f : β → α) :
    (p.bind fun b => .done (f b)).AsksFirst callbacks key := by
  obtain ⟨rest, rfl, hrest⟩ := h
  exact ⟨fun i => (rest i).bind fun b => .done (f b), bind_assoc _ _ _,
    fun i => (hrest i).bind fun _ => trivial⟩

/-- An operation about a key asks the router for it first. -/
theorem asksFirst_process {operation : Operation V β} {key : String}
    (h : operation.key? = some key) :
    (operation.process : Process mode n S V β).AsksFirst False key := by
  cases operation with
  | set =>
    cases h
    refine ⟨_, rfl, fun i => (only_request i .exclusive).about.bind fun _ => ?_⟩
    exact (only_perform rfl).bind fun _ => (only_perform rfl).bind fun _ =>
      (only_perform rfl).bind fun _ => only_perform rfl
  | setIfAbsent =>
    cases h
    refine ⟨_, rfl, fun i => (only_request i .exclusive).about.bind fun _ => ?_⟩
    refine (only_perform rfl).bind fun table => ?_
    split
    · exact (only_perform rfl).bind fun _ => trivial
    · exact (only_perform rfl).bind fun _ => (only_perform rfl).bind fun _ =>
        (only_perform rfl).bind fun _ => trivial
  | get => cases h; exact asksFirst_lookup _
  | has => cases h; exact AsksFirst.bind_pure (asksFirst_lookup _) _
  | remove => cases h; exact AsksFirst.bind_pure (asksFirst_removal _) _
  | pop => cases h; exact asksFirst_removal _
  | shardIndex => cases h; exact ⟨_, rfl, fun i => trivial⟩
  | _ => cases h

/-- Any other operation only reads. -/
theorem only_process {operation : Operation V β} (h : operation.key? = none) :
    (operation.process : Process mode n S V β).Only False Reading := by
  have hcount : (countAll : Process mode n S V Nat).Only False Reading :=
    only_captureAll.bind fun _ => trivial
  have htally (i : Fin n) : (readTally i : Process mode n S V Tally).Only False Reading := by
    have hcounted (counter : Counter) :
        (perform (.counted i counter) : Process mode n S V UInt64).Only False Reading :=
      only_perform ⟨Option.some_ne_none i, id⟩
    exact (hcounted _).bind fun _ => (hcounted _).bind fun _ => (hcounted _).bind fun _ =>
      (hcounted _).bind fun _ => trivial
  cases operation with
  | shardCount => trivial
  | count => exact hcount
  | keys => exact hcount.bind fun _ => only_collectAll.bind fun _ => trivial
  | items => exact hcount.bind fun _ => only_captureAll.bind fun _ => trivial
  | stats =>
    exact only_captureAll.bind fun _ => (only_mapM htally _).bind fun _ => trivial
  | snapshot => exact only_collectAll.bind fun _ => trivial
  | _ => cases h

end Operation

end ShardStore
