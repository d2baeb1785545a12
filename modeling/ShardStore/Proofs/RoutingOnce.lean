import ShardStore.Proofs.Courses.Inside
import ShardStore.Proofs.Courses.Own
import ShardStore.Routing.Stock

/-!
# Routing happens once

A caller's router is a state machine: each question may change what it answers next. So it matters
how often it is asked, and when. Every call about a key asks it exactly once, before all else, and
then deals with the shard that it named; no other call asks it (`Operation.asksFirst_process`,
`Operation.only_process`). What a program does to a store is therefore told by the list of its calls
about keys in the order in which they start, wherever they stand in the nesting of callbacks: the
router is run over their keys, and each shard's table is that of a plain map to which the calls were
made that the router sent there (`Explains`).

## Shape of the argument

`Program.deeds` lists the calls of a run, each with the place that the router named and with what
came of it. Lists explain one run after another (`Explains.append`), so the deeds of a program
explain it if those of each call do. The deeds of a callback stand behind the update that runs it;
none of them does anything to the update's own shard, which refuses them (`Deed.IsIdle`).
-/

namespace ShardStore

/-- The value that was returned, if one was. -/
def Outcome.value? {α : Type} : Outcome α → Option α
  | .returned value => some value
  | _ => none

/-! ## What calls about keys did -/

/-- A call about a key in a run, with the place that the router named, or its fault. -/
inductive Deed (n : Nat) (V : Type) : Type 1 where
  /-- A call without a callback, with its answer unless it unwound. -/
  | keyed {β : Type} (call : Keyed V β) (place : Except Fault (Fin n)) (answer : Option β)
  /-- An update, with the value that its callback was run on, if it was run, and the value that was
  stored, if one was. -/
  | update (key : String) (place : Except Fault (Fin n)) (found : Option (Option V))
      (stored : Option V)
  /-- A question for a key's shard. -/
  | index (key : String) (place : Except Fault (Fin n))

namespace Deed

variable {n : Nat} {V : Type}

/-- The key that a call was about. -/
def key : Deed n V → String
  | .keyed call _ _ => call.key
  | .update key _ _ _ => key
  | .index key _ => key

/-- Where the router sent a call. -/
def place : Deed n V → Except Fault (Fin n)
  | .keyed _ place _ => place
  | .update _ place _ _ => place
  | .index _ place => place

/-- Whether a call was sent to shard `i`. -/
def isAt (i : Fin n) (deed : Deed n V) : Bool :=
  match deed.place with
  | .ok j => j = i
  | .error _ => false

/-- The table that a call leaves of a plain map; one that unwound does nothing. -/
def after (table : Table V) : Deed n V → Table V
  | .keyed call _ (some _) => call.after table
  | .update key _ _ (some value) => table.insert key value
  | _ => table

/-- What a call told its caller, or its callback, is so on a plain map. -/
def Fits (table : Table V) : Deed n V → Prop
  | .keyed call _ (some answer) => answer = call.answer table
  | .update key _ (some found) _ => found = table[key]?
  | _ => True

/-- A call that did nothing and told nothing. -/
def IsIdle : Deed n V → Prop
  | .keyed _ _ none => True
  | .update _ _ none none => True
  | .index _ _ => True
  | _ => False

/-- Idle calls fit everywhere and change nothing. -/
theorem IsIdle.fits_and_after {deed : Deed n V} (h : deed.IsIdle) (table : Table V) :
    deed.Fits table ∧ deed.after table = table := by
  match deed, h with
  | .keyed _ _ none, _ => exact ⟨trivial, rfl⟩
  | .update _ _ none none, _ => exact ⟨trivial, rfl⟩
  | .index _ _, _ => exact ⟨trivial, rfl⟩

/-- Calls made to a plain map one after another, each of which fits, and the table that is left. -/
inductive Replays : Table V → List (Deed n V) → Table V → Prop where
  | done (table : Table V) : Replays table [] table
  | call {table table' : Table V} {deed : Deed n V} {rest : List (Deed n V)}
      (hfits : deed.Fits table) (hrest : Replays (deed.after table) rest table') :
      Replays table (deed :: rest) table'

theorem Replays.append {table table' table'' : Table V} {deeds deeds' : List (Deed n V)}
    (h : Replays table deeds table') (h' : Replays table' deeds' table'') :
    Replays table (deeds ++ deeds') table'' := by
  induction h with
  | done => exact h'
  | call hfits _ ih => exact .call hfits (ih h')

/-- Idle calls can be replayed on any table, which they leave as it is. -/
theorem Replays.of_idle {deeds : List (Deed n V)} (h : ∀ deed ∈ deeds, deed.IsIdle)
    (table : Table V) : Replays table deeds table := by
  induction deeds with
  | nil => exact .done table
  | cons deed rest ih =>
    obtain ⟨hfits, hafter⟩ := (h deed List.mem_cons_self).fits_and_after table
    apply Replays.call hfits
    rw [hafter]
    exact ih fun other hother => h other (List.mem_cons_of_mem _ hother)

theorem isAt_iff {deed : Deed n V} {i : Fin n} : deed.isAt i = true ↔ deed.place = .ok i := by
  unfold isAt
  split
  · next j hplace => rw [hplace, decide_eq_true_iff, Except.ok.injEq]
  · next fault hplace => simp [hplace]

end Deed

/-! ## The deeds of a program -/

section deeds

variable {σ S V α β γ : Type} {n : Nat}

/-- What is listed after a run that returned. -/
def afterRun {δ : Type 1} (ran : Outcome α × Store σ V n × S) (list : α → Store σ V n → S → List δ) :
    List δ :=
  match ran with
  | (.returned a, store, own) => list a store own
  | _ => []

/-- What is listed along runs one after another, up to the first that does not return. -/
def alongRuns {ι : Type} {δ : Type 1} (run : ι → Store σ V n → S → Outcome γ × Store σ V n × S)
    (list : ι → Store σ V n → S → List δ) : List ι → Store σ V n → S → List δ
  | [], _, _ => []
  | i :: rest, store, own =>
    list i store own ++ afterRun (run i store own) fun _ => alongRuns run list rest

/-- What an operation did that ended in a certain way. -/
def Operation.deeds (store : Store σ V n) :
    {β : Type} → Operation V β → Outcome β → List (Deed n V)
  | _, .set key value, outcome =>
    [.keyed (.set key value) (store.route key).1 outcome.value?]
  | _, .setIfAbsent key value, outcome =>
    [.keyed (.setIfAbsent key value) (store.route key).1 outcome.value?]
  | _, .get key, outcome => [.keyed (.get key) (store.route key).1 outcome.value?]
  | _, .has key, outcome => [.keyed (.has key) (store.route key).1 outcome.value?]
  | _, .remove key, outcome => [.keyed (.remove key) (store.route key).1 outcome.value?]
  | _, .pop key, outcome => [.keyed (.pop key) (store.route key).1 outcome.value?]
  | _, .shardIndex key, _ => [.index key (store.route key).1]
  | _, _, _ => []

/-- What an update did that has stored a certain value, unless it unwound, with what its callback
did, if it was run. -/
def updateDeeds (me : ThreadId) (key : String) (stored : Option V)
    (callback : Option V → Store σ V n → S → List (Deed n V)) (store : Store σ V n) (own : S) :
    List (Deed n V) :=
  match store.route key with
  | (.ok i, routed) =>
    if me ∈ (routed.shard i).markers then [.update key (.ok i) none stored]
    else
      let found := (routed.table i)[key]?
      .update key (.ok i) (some found) stored ::
        callback found (routed.modify i (Shard.opened me .exclusive)) own
  | (.error fault, _) => [.update key (.error fault) none stored]

/-- What the callbacks did on the entries of a shard, if it was visited. -/
def visitDeeds (me : ThreadId) (run : String × V → Store σ V n → S → Outcome β × Store σ V n × S)
    (callback : String × V → Store σ V n → S → List (Deed n V)) (i : Fin n) (store : Store σ V n)
    (own : S) : List (Deed n V) :=
  if me ∈ (store.shard i).markers then []
  else alongRuns run callback (store.table i).toList (store.modify i (Shard.opened me .shared)) own

/-- The calls about keys in a run of a program, in the order in which they start. -/
def Program.deeds (me : ThreadId) :
    {α : Type} → Program .single S V α → Store σ V n → S → List (Deed n V)
  | _, .done _, _, _ => []
  | _, .unwind _, _, _ => []
  | _, .call operation next, store, own =>
    let ran := (operation.process : Process .single n S V _).run me store own
    operation.deeds store ran.1 ++ afterRun ran fun b => (next b).deeds me
  | _, .withOwn change next, store, own =>
    let (b, own) := change own
    (next b).deeds me store own
  | _, .update key callback next, store, own =>
    let ran := (Process.update key fun old => (callback old).process).run me store own
    updateDeeds me key (ran.1.value?.map Prod.fst) (fun old => (callback old).deeds me) store own ++
      afterRun ran fun stored => (next stored).deeds me
  | _, .visit callback next, store, own =>
    let ran := (Process.visit fun key value => (callback key value).process).run me store own
    let shardRun (i : Fin n) : Store σ V n → S → _ :=
      (Process.visitShard (fun key value => (callback key value).process) i).run me
    let shardDeeds (i : Fin n) : Store σ V n → S → List (Deed n V) :=
      visitDeeds me (fun entry => (callback entry.1 entry.2).run me)
        (fun entry => (callback entry.1 entry.2).deeds me) i
    alongRuns shardRun shardDeeds (List.finRange n) store own ++
      afterRun ran fun visited => (next visited).deeds me
  | _, .attempt part next, store, own =>
    part.deeds me store own ++
      match part.run me store own with
      | (.returned b, store, own) => (next (.ok b)).deeds me store own
      | (.unwound fault, store, own) => (next (.error fault)).deeds me store own
      | (.blocked, _, _) => []

end deeds

/-! ## Explaining a run by its deeds -/

namespace Store

variable {σ V : Type} {n : Nat} {store store' : Store σ V n}

/-- What the router answers to questions for some keys, one after another, and the routing that they
leave. -/
def routeAll (store : Store σ V n) : List String → List (Except Fault (Fin n)) × Routing σ
  | [] => ([], store.routing)
  | key :: keys =>
    let (place, store) := store.route key
    let (places, routing) := store.routeAll keys
    (place :: places, routing)

/-- Only the hasher and the routing matter for the router's answers. -/
theorem routeAll_congr (hhasher : store'.hasher = store.hasher)
    (hrouting : store'.routing = store.routing) (keys : List String) :
    store'.routeAll keys = store.routeAll keys := by
  induction keys generalizing store store' with
  | nil => exact congrArg (Prod.mk []) hrouting
  | cons key keys ih =>
    have hanswer : (store'.route key).1 = (store.route key).1 := by
      simp only [route, hhasher, hrouting]
      rfl
    have hrest : (store'.route key).2.routeAll keys = (store.route key).2.routeAll keys := by
      refine ih hhasher ?_
      simp only [route, hhasher, hrouting]
    simp only [routeAll, hanswer, hrest]

/-- Questions after others start from the routing that these leave. -/
theorem routeAll_append (hhasher : store'.hasher = store.hasher) {keys : List String}
    {places : List (Except Fault (Fin n))} (hkeys : store.routeAll keys = (places, store'.routing))
    (keys' : List String) :
    store.routeAll (keys ++ keys') =
      (places ++ (store'.routeAll keys').1, (store'.routeAll keys').2) := by
  induction keys generalizing store places with
  | nil =>
    obtain ⟨rfl, hrouting⟩ := Prod.mk.inj hkeys
    exact routeAll_congr hhasher.symm hrouting keys'
  | cons key keys ih =>
    simp only [routeAll] at hkeys
    obtain ⟨rfl, hrouting⟩ := Prod.mk.inj hkeys
    have hsame : store'.hasher = (store.route key).2.hasher := hhasher
    have hrest := ih hsame (Prod.ext rfl hrouting)
    simp only [List.cons_append, routeAll, hrest]

end Store

/-- Deeds explain how one store became another: the router was asked for their keys, one question
each, and named their places, and each shard's table is that of a plain map to which those were done
that were sent there. Those that were sent to a shard of a running callback did nothing. -/
structure Explains {σ V : Type} {n : Nat} (scopes : List (Fin n × Access)) (deeds : List (Deed n V))
    (store store' : Store σ V n) : Prop where
  hasher : store'.hasher = store.hasher
  asked : store.routeAll (deeds.map Deed.key) = (deeds.map Deed.place, store'.routing)
  replays : ∀ i, Deed.Replays (store.table i) (deeds.filter (Deed.isAt i)) (store'.table i)
  idle : ∀ i ∈ scopes.map Prod.fst, ∀ deed ∈ deeds, deed.isAt i = true → deed.IsIdle

namespace Explains

variable {σ V : Type} {n : Nat} {scopes : List (Fin n × Access)} {deeds deeds' : List (Deed n V)}
  {store store' store'' : Store σ V n}

/-- Nothing explains what neither asks the router nor changes a table. -/
theorem nil (h : store.Alike store') : Explains scopes [] store store' where
  hasher := h.hasher
  asked := congrArg (Prod.mk []) h.routing.symm
  replays i := by
    rw [h.table i]
    exact .done _
  idle _ _ _ hmem := absurd hmem List.not_mem_nil

theorem append (h : Explains scopes deeds store store') (h' : Explains scopes deeds' store' store'') :
    Explains scopes (deeds ++ deeds') store store'' where
  hasher := h'.hasher.trans h.hasher
  asked := by
    rw [List.map_append, List.map_append, Store.routeAll_append h.hasher h.asked, h'.asked]
  replays i := by
    rw [List.filter_append]
    exact (h.replays i).append (h'.replays i)
  idle i hi deed hmem := by
    rcases List.mem_append.mp hmem with hmem | hmem
    · exact h.idle i hi deed hmem
    · exact h'.idle i hi deed hmem

/-- One call. -/
theorem single {deed : Deed n V} (hhasher : store'.hasher = store.hasher)
    (hplace : deed.place = (store.route deed.key).1)
    (hrouting : store'.routing = (store.route deed.key).2.routing)
    (hself : ∀ i, deed.place = .ok i → deed.Fits (store.table i) ∧
      store'.table i = deed.after (store.table i))
    (hother : ∀ i, deed.place ≠ .ok i → store'.table i = store.table i)
    (hidle : ∀ i ∈ scopes.map Prod.fst, deed.place = .ok i → deed.IsIdle) :
    Explains scopes [deed] store store' where
  hasher := hhasher
  asked := by
    simp only [List.map_cons, List.map_nil, Store.routeAll, hplace, hrouting]
  replays i := by
    by_cases hi : deed.place = .ok i
    · obtain ⟨hfits, hafter⟩ := hself i hi
      rw [List.filter_singleton, Deed.isAt_iff.mpr hi, hafter]
      exact .call hfits (.done _)
    · rw [List.filter_singleton, Bool.eq_false_iff.mpr fun hat => hi (Deed.isAt_iff.mp hat),
        hother i hi]
      exact .done _
  idle i hi other hmem hat := by
    obtain rfl := List.mem_singleton.mp hmem
    exact hidle i hi (Deed.isAt_iff.mp hat)

/-- Deeds inside a scope are deeds outside of it. -/
theorem under {scope : Fin n × Access} (h : Explains (scope :: scopes) deeds store store') :
    Explains scopes deeds store store' :=
  { h with idle := fun i hi => h.idle i (List.mem_cons_of_mem _ hi) }

/-- Stores that are alike are explained alike. -/
theorem congr {next next' : Store σ V n} (h : Explains scopes deeds store store')
    (hstore : next.Alike store) (hstore' : store'.Alike next') :
    Explains scopes deeds next next' := by
  have hwhole := ((nil hstore).append h).append (nil hstore')
  rwa [List.nil_append, List.append_nil] at hwhole

/-- An update whose callback ran, before the deeds of the callback: none of them did anything to its
shard, so what it stored may as well stand before them. -/
theorem update {i : Fin n} {access : Access} {key : String} {found : Option V} {stored : Option V}
    {routed : Store σ V n} (hroute : store.route key = (.ok i, routed))
    (hfound : found = (store.table i)[key]?) (hi : i ∉ scopes.map Prod.fst)
    (h : Explains ((i, access) :: scopes) deeds routed store')
    (hhasher : store''.hasher = store'.hasher) (hrouting : store''.routing = store'.routing)
    (hself : store''.table i = (Deed.update key (.ok i) (some found) stored).after (store.table i))
    (hothers : ∀ j, i ≠ j → store''.table j = store'.table j) :
    Explains scopes (.update key (.ok i) (some found) stored :: deeds) store store'' where
  hasher := by rw [hhasher, h.hasher, ← congrArg (fun r => r.2.hasher) hroute]; rfl
  asked := by
    simp only [List.map_cons, Deed.key, Deed.place, Store.routeAll, hroute, h.asked, hrouting]
  replays j := by
    have hrouted : routed.table j = store.table j := by
      rw [Store.table, Store.shard, ← congrArg (fun r => r.2.shards) hroute, Action.shards_route]
      rfl
    by_cases hij : i = j
    · subst hij
      have hat : (Deed.update key (.ok i) (some found) stored).isAt i = true :=
        Deed.isAt_iff.mpr rfl
      have hfits : (Deed.update key (.ok i) (some found) stored).Fits (store.table i) := hfound
      rw [List.filter_cons_of_pos hat, hself]
      apply Deed.Replays.call hfits
      apply Deed.Replays.of_idle
      intro deed hmem
      obtain ⟨hdeed, hat⟩ := List.mem_filter.mp hmem
      exact h.idle i List.mem_cons_self deed hdeed hat
    · have hat : ¬(Deed.update key (.ok i) (some found) stored).isAt j = true := fun hat =>
        hij (Except.ok.inj (Deed.isAt_iff.mp hat))
      rw [List.filter_cons_of_neg hat, hothers j hij, ← hrouted]
      exact h.replays j
  idle j hj deed hmem hat := by
    rcases List.mem_cons.mp hmem with rfl | hmem
    · obtain rfl : i = j := Except.ok.inj (Deed.isAt_iff.mp hat)
      exact (hi hj).elim
    · exact h.idle j (List.mem_cons_of_mem _ hj) deed hmem hat

end Explains

/-! ## Deeds explain their runs -/

section explains

variable {σ S V α β γ δ : Type} {n : Nat} {me : ThreadId} {scopes : List (Fin n × Access)}
  {store : Store σ V n} {deeds : List (Deed n V)}

/-- Doing something to the value that a course returns leaves the same behind. -/
theorem Process.run_bind_done {mode : Threading} (p : Process mode n S V α) (g : α → β)
    (me : ThreadId) (store : Store σ V n) (own : S) :
    ((p.bind fun a => .done (g a)).run me store own).2 = (p.run me store own).2 := by
  rw [run_bind]
  rcases p.run me store own with ⟨outcome, store', own'⟩
  cases outcome <;> rfl

/-- One course after another, if the second is explained wherever it starts. -/
theorem Explains.andThen {p : Process .single n S V β} {q : β → Process .single n S V α}
    {list : β → Store σ V n → S → List (Deed n V)} {own : S}
    (hp : Explains scopes deeds store (p.run me store own).2.1)
    (hinside : (p.run me store own).2.1.Inside me scopes)
    (hq : ∀ b (store' : Store σ V n) own', store'.Inside me scopes →
      Explains scopes (list b store' own') store' ((q b).run me store' own').2.1) :
    Explains scopes (deeds ++ afterRun (p.run me store own) list) store
      ((p.bind q).run me store own).2.1 := by
  rw [Process.run_bind]
  rcases hrun : p.run me store own with ⟨outcome, store', own'⟩
  rw [hrun] at hp hinside
  cases outcome with
  | returned b => exact hp.append (hq b store' own' hinside)
  | unwound fault => simpa only [afterRun, List.append_nil] using hp
  | blocked => simpa only [afterRun, List.append_nil] using hp

/-- Courses one after another, if each is explained wherever it starts. -/
theorem explains_alongRuns {ι : Type} {p : ι → Process .single n S V γ}
    {f : ι → Process .single n S V δ} {g : ι → γ → δ}
    {list : ι → Store σ V n → S → List (Deed n V)}
    (hf : ∀ i, f i = (p i).bind fun c => .done (g i c)) (hkeeps : ∀ i, (p i).Keeps .idle .idle)
    (hp : ∀ i (store' : Store σ V n) own', store'.Inside me scopes →
      Explains scopes (list i store' own') store' ((p i).run me store' own').2.1)
    (indices : List ι) (h : store.Inside me scopes) (own : S) :
    Explains scopes (alongRuns (fun i => (p i).run me) list indices store own) store
      ((indices.mapM f).run me store own).2.1 := by
  induction indices generalizing store own with
  | nil => exact .nil (.refl store)
  | cons i rest ih =>
    have hbody : (i :: rest).mapM f =
        (p i).bind fun c => (rest.mapM f).bind fun values => .done (g i c :: values) := by
      rw [List.mapM_cons, hf, Process.bind_eq, Process.bind_assoc]
      rfl
    rw [hbody]
    refine (hp i store own h).andThen ((hkeeps i).run_inside h own).2.1 fun c store' own' h' => ?_
    rw [Process.run_bind_done]
    exact ih h' own'

/-- What a question leaves besides the routing. -/
theorem Store.table_of_route {key : String} {place : Except Fault (Fin n)} {routed : Store σ V n}
    (hroute : store.route key = (place, routed)) :
    routed.hasher = store.hasher ∧ ∀ i, routed.shard i = store.shard i := by
  refine ⟨by rw [← congrArg (fun r => r.2.hasher) hroute]; rfl, fun i => ?_⟩
  rw [Store.shard, ← congrArg (fun r => r.2.shards) hroute, Action.shards_route, Store.shard]

/-- A call without a callback explains what it comes to. -/
theorem explains_keyed (h : store.Inside me scopes) (call : Keyed V β) (own : S) :
    let ran := (call.operation.process : Process .single n S V β).run me store own
    Explains scopes [.keyed call (store.route call.key).1 ran.1.value?] store ran.2.1 := by
  rcases hroute : store.route call.key with ⟨place, routed⟩
  obtain ⟨hhasher, hshard⟩ := Store.table_of_route hroute
  have hkey : call.operation.key? = some call.key := by cases call <;> rfl
  have htable (i : Fin n) : routed.table i = store.table i := congrArg Shard.table (hshard i)
  cases place with
  | error fault =>
    have hasks : (call.operation.process : Process .single n S V β).AsksFirst False call.key :=
      Operation.asksFirst_process hkey
    simp only [(hasks.run_of_error hroute me own).1]
    exact .single hhasher (by rw [Deed.place, Deed.key, hroute]) (by rw [Deed.key, hroute])
      (fun i hi => by cases hi) (fun i _ => htable i) (fun i _ hi => by cases hi)
  | ok i =>
    have hrouted := (h.route hroute).1
    by_cases hi : i ∈ scopes.map Prod.fst
    · -- Its shard refuses it.
      have hmark : me ∈ (routed.shard i).markers := hrouted.mem_markers hi
      simp only [Process.run_keyed_refused me call hroute hmark own]
      refine .single hhasher (by rw [Deed.place, Deed.key, hroute]) (by rw [Deed.key, hroute])
        (fun j _ => ⟨trivial, htable j⟩) (fun j _ => htable j) fun j _ _ => trivial
    · obtain ⟨hmark, hlock⟩ := hrouted.admits hi call.access
      simp only [Process.run_keyed me call hroute hmark hlock own]
      refine .single hhasher (by rw [Deed.place, Deed.key, hroute]) (by rw [Deed.key, hroute]; rfl)
        (fun j hj => ?_) (fun j hj => ?_) fun j hj heq => ?_
      · obtain rfl : i = j := Except.ok.inj hj
        rw [Store.table_modify_self, htable i]
        exact ⟨rfl, congrArg call.after (htable i)⟩
      · rw [Store.table_modify_ne routed (fun hij => hj (congrArg Except.ok hij)), htable j]
      · obtain rfl : i = j := Except.ok.inj heq
        exact (hi hj).elim

/-- Every operation is explained. -/
theorem explains_operation (h : store.Inside me scopes) (operation : Operation V β) (own : S) :
    let ran := (operation.process : Process .single n S V β).run me store own
    Explains scopes (operation.deeds store ran.1) store ran.2.1 := by
  cases operation with
  | set key value => exact explains_keyed h (.set key value) own
  | setIfAbsent key value => exact explains_keyed h (.setIfAbsent key value) own
  | get key => exact explains_keyed h (.get key) own
  | has key => exact explains_keyed h (.has key) own
  | remove key => exact explains_keyed h (.remove key) own
  | pop key => exact explains_keyed h (.pop key) own
  | shardIndex key =>
    rcases hroute : store.route key with ⟨place, routed⟩
    obtain ⟨hhasher, hshard⟩ := Store.table_of_route hroute
    let question : Process .single n S V Nat := (Operation.shardIndex key).process
    have hleft : (question.run me store own).2.1 = routed := by
      simp only [question]
      rw [Operation.process, Process.bind_eq, Process.run_perform_bind, Action.perform, hroute]
      cases place <;> rfl
    simp only [question] at hleft
    simp only [hleft]
    exact .single hhasher (by rw [Deed.place, Deed.key]) (by rw [Deed.key, hroute])
      (fun i _ => ⟨trivial, congrArg Shard.table (hshard i)⟩)
      (fun i _ => congrArg Shard.table (hshard i)) fun _ _ _ => trivial
  | _ => exact .nil ((Operation.only_process rfl).run_reading me store own)

/-- An update is explained if its callback is, wherever it starts. -/
theorem explains_update (h : store.Inside me scopes) (key : String)
    {callback : Option V → Process .single n S V (V × β)}
    {list : Option V → Store σ V n → S → List (Deed n V)}
    (hkeeps : ∀ old, (callback old).Keeps .idle .idle)
    (hcallback : ∀ old {scopes : List (Fin n × Access)} {store : Store σ V n},
      store.Inside me scopes → ∀ own, Explains scopes (list old store own) store
        ((callback old).run me store own).2.1) (own : S) :
    let ran := (Process.update key callback).run me store own
    Explains scopes (updateDeeds me key (ran.1.value?.map Prod.fst) list store own) store
      ran.2.1 := by
  rcases hroute : store.route key with ⟨place, routed⟩
  obtain ⟨hhasher, hshard⟩ := Store.table_of_route hroute
  have htable (i : Fin n) : routed.table i = store.table i := congrArg Shard.table (hshard i)
  cases place with
  | error fault =>
    have hrun := ((Process.asksFirst_update key callback).run_of_error hroute me own).1
    simp only [hrun, updateDeeds, hroute]
    exact .single hhasher (by rw [Deed.place, Deed.key, hroute]) (by rw [Deed.key, hroute])
      (fun i hi => by cases hi) (fun i _ => htable i) (fun i _ hi => by cases hi)
  | ok i =>
    have hrouted := (h.route hroute).1
    by_cases hi : i ∈ scopes.map Prod.fst
    · -- Its shard refuses it.
      have hmark := hrouted.mem_markers hi
      simp only [Process.run_update_refused hroute hmark callback own, updateDeeds, hroute,
        if_pos hmark]
      exact .single hhasher (by rw [Deed.place, Deed.key, hroute]) (by rw [Deed.key, hroute])
        (fun j _ => ⟨trivial, htable j⟩) (fun j _ => htable j) fun j _ _ => trivial
    · have hadmits := hrouted.admits hi .exclusive
      have hopened : (routed.modify i (Shard.opened me .exclusive)).Inside me
          ((i, .exclusive) :: scopes) := hrouted.opened hi
      have hinner := hcallback (routed.table i)[key]? hopened own
      obtain ⟨hnot, -, hsame⟩ := (hkeeps (routed.table i)[key]?).run_inside hopened own
      simp only [Process.run_update hroute hadmits, updateDeeds, hroute, if_neg hadmits.1]
      rcases hrun : (callback (routed.table i)[key]?).run me
        (routed.modify i (Shard.opened me .exclusive)) own with ⟨outcome, inner, own'⟩
      rw [hrun] at hinner hnot hsame
      have hstill : inner.table i = store.table i := by
        rw [Store.table, hsame i List.mem_cons_self, Store.shard_modify_self, ← htable i]
        rfl
      have hexplains := hinner.congr (routed.alike_modify i rfl) (.refl inner)
      have hfound : (routed.table i)[key]? = (store.table i)[key]? := by rw [htable i]
      cases outcome with
      | returned stored =>
        refine hexplains.update hroute hfound hi rfl rfl ?_ fun j hij => ?_
        · rw [Store.table_modify_self, ← htable i]
          rfl
        · rw [Store.table_modify_ne inner hij]
      | unwound fault =>
        refine hexplains.update hroute hfound hi rfl rfl ?_ fun j hij => ?_
        · rw [Store.table_modify_self, ← hstill]
          rfl
        · rw [Store.table_modify_ne inner hij]
      | blocked => exact absurd rfl hnot

/-- A visit of one shard is explained if its callback is, wherever it starts. -/
theorem explains_visitShard (h : store.Inside me scopes)
    {callback : String → V → Process .single n S V β}
    {list : String × V → Store σ V n → S → List (Deed n V)}
    (hkeeps : ∀ key value, (callback key value).Keeps .idle .idle)
    (hcallback : ∀ (entry : String × V) {scopes : List (Fin n × Access)} {store : Store σ V n},
      store.Inside me scopes → ∀ own, Explains scopes (list entry store own) store
        ((callback entry.1 entry.2).run me store own).2.1) (i : Fin n) (own : S) :
    Explains scopes
      (visitDeeds me (fun entry => (callback entry.1 entry.2).run me) list i store own) store
      ((Process.visitShard callback i).run me store own).2.1 := by
  by_cases hi : i ∈ scopes.map Prod.fst
  · have hmark := h.mem_markers hi
    have hrun : (Process.visitShard callback i).run me store own =
        (.unwound .reentrant, store, own) := by
      rw [Process.visitShard, Process.bind_eq, Process.run_request_bind_refused me hmark]
    rw [visitDeeds, if_pos hmark, hrun]
    exact .nil (.refl store)
  · have hadmits := h.admits hi .shared
    have hopened : (store.modify i (Shard.opened me .shared)).Inside me ((i, .shared) :: scopes) :=
      h.opened hi
    have hentries := explains_alongRuns (f := fun entry : String × V =>
        (callback entry.1 entry.2).bind fun b => .done (entry, b)) (fun _ => rfl)
      (fun entry => hkeeps entry.1 entry.2)
      (fun entry store' own' h' => hcallback entry h' own') (store.table i).toList hopened own
    rw [visitDeeds, if_neg hadmits.1, Process.run_visitShard hadmits]
    have hbody : Process.visitEntries callback (store.table i).toList =
        (store.table i).toList.mapM fun entry : String × V =>
          (callback entry.1 entry.2).bind fun b => .done (entry, b) := rfl
    rw [hbody]
    rcases hrun : ((store.table i).toList.mapM fun entry : String × V =>
        (callback entry.1 entry.2).bind fun b => .done (entry, b)).run me
      (store.modify i (Shard.opened me .shared)) own with ⟨outcome, inner, own'⟩
    rw [hrun] at hentries
    have houter := hentries.under
    cases outcome with
    | returned visited =>
      exact houter.congr (store.alike_modify i rfl) (inner.alike_modify i rfl)
    | unwound fault =>
      exact houter.congr (store.alike_modify i rfl) (inner.alike_modify i rfl)
    | blocked => exact houter.congr (store.alike_modify i rfl) (.refl inner)

/-- **Every run is explained by its deeds**, inside any scopes. -/
theorem Program.explains_deeds (h : store.Inside me scopes) (program : Program .single S V α)
    (own : S) :
    Explains scopes (program.deeds me store own) store (program.run me store own).2.1 := by
  induction program generalizing store scopes own with
  | done value => exact .nil (.refl store)
  | unwind fault => exact .nil (.refl store)
  | call operation next ih =>
    exact (explains_operation h operation own).andThen
      (operation.keeps_process.run_inside h own).2.1 fun b store' own' h' => ih b h' own'
  | withOwn change next ih => exact ih _ h _
  | update key callback next ihcallback ih =>
    have hkeeps (old : Option _) := (callback old).keeps_process (n := n)
    exact (explains_update h key hkeeps (fun old _ _ h' own' => ihcallback old h' own') own).andThen
      ((Process.keeps_update hkeeps).run_inside h own).2.1 fun stored store' own' h' =>
        ih stored h' own'
  | visit callback next ihcallback ih =>
    have hkeeps (key : String) (value : V) := (callback key value).keeps_process (n := n)
    have hshards := explains_alongRuns (fun _ => (Process.bind_done _).symm)
      (fun i => Process.keeps_visitShard hkeeps i)
      (fun i store' own' h' => explains_visitShard h' hkeeps
        (fun entry _ _ h'' own'' => ihcallback entry.1 entry.2 h'' own'') i own')
      (List.finRange n) h own
    have hsame : ((Process.visit fun key value => (callback key value).process).run me store own).2 =
        (((List.finRange n).mapM (Process.visitShard fun key value =>
          (callback key value).process)).run me store own).2 := Process.run_bind_done _ _ me store own
    rw [← hsame] at hshards
    exact hshards.andThen ((Process.keeps_visit hkeeps).run_inside h own).2.1
      fun visited store' own' h' => ih visited h' own'
  | attempt part next ihpart ih =>
    have hpart := ihpart h own
    obtain ⟨-, hinside, -⟩ := part.keeps_process.run_inside h own
    rw [run] at hpart
    rw [deeds, run, run, process, Process.run]
    rcases hrun : part.process.run me store own with ⟨outcome, store', own'⟩
    rw [hrun] at hpart hinside
    cases outcome with
    | returned b => exact hpart.append (ih (.ok b) hinside own')
    | unwound fault => exact hpart.append (ih (.error fault) hinside own')
    | blocked => simpa only [List.append_nil] using hpart
  | onThread may => cases may

end explains

/-! ## The statement -/

section statement

variable {σ S V α : Type} {n : Nat} {me : ThreadId} {scopes : List (Fin n × Access)}
  {store : Store σ V n}

/-- A caller's router names the shard at the remainder of its answer, and is left in the state that
the answer left it in. -/
theorem Store.route_custom {router : Router σ} {state : σ}
    (h : store.routing = .custom router state) (key : String) :
    let answered := router.answer state (store.hasher.hashKey key) (UInt64.ofNat n)
    (store.route key).1.map Fin.val = answered.2.map (fun index => index.toNat % n) ∧
      (store.route key).2.routing = .custom router answered.1 := by
  rcases hanswered : router.answer state (store.hasher.hashKey key) (UInt64.ofNat n) with
    ⟨state', answer⟩
  simp only [route, h, Routing.route, hanswered]
  cases answer with
  | error fault => exact ⟨rfl, trivial⟩
  | ok index =>
    refine ⟨?_, trivial⟩
    rw [show (Except.ok index >>= fun index => modulo index (UInt64.ofNat n)) =
      modulo index (UInt64.ofNat n) from rfl, modulo_eq_ok store.count_ne_zero]
    exact congrArg Except.ok (store.val_indexOf_mod index)

/-- Asked for several keys, a router that deals its list out in turn names its elements in turn. -/
theorem Store.routeAll_cycle {store : Store Nat V n} {indexes : List UInt64} {calls : Nat}
    (h : store.routing = .custom (Router.cycle indexes) calls) (hne : indexes ≠ [])
    (keys : List String) {k : Nat} {place : Except Fault (Fin n)}
    (hplace : (store.routeAll keys).1[k]? = some place) :
    ∃ index i, indexes[(calls + k) % indexes.length]? = some index ∧ place = .ok i ∧
      i.val = index.toNat % n := by
  induction keys generalizing store calls k with
  | nil => cases hplace
  | cons key keys ih =>
    cases k with
    | zero =>
      have hanswer : (store.route key).1.map Fin.val =
        (Router.pick indexes calls).map fun index => index.toNat % n := (Store.route_custom h key).1
      have hlt : calls % indexes.length < indexes.length :=
        Nat.mod_lt _ (List.length_pos_iff.mpr hne)
      have hindex := List.getElem?_eq_getElem hlt
      have hpick : Router.pick indexes calls = .ok indexes[calls % indexes.length] := by
        rw [Router.pick, hindex]
      have hfirst : (store.route key).1 = place := Option.some.inj hplace
      rw [hpick, hfirst] at hanswer
      cases place with
      | error fault => cases hanswer
      | ok i => exact ⟨_, i, hindex, rfl, Except.ok.inj hanswer⟩
    | succ k =>
      have hnext : (store.route key).2.routing = .custom (Router.cycle indexes) (calls + 1) :=
        (Store.route_custom h key).2
      have hrest := ih hnext hplace
      rwa [Nat.add_assoc, Nat.add_comm 1 k] at hrest

/-- Of the pairs to insert, each one that is reached is a call of its own. -/
theorem Program.deeds_setMany (me : ThreadId) (pairs : List (String × V)) (store : Store σ V n)
    (own : S) :
    let inserting : Program .single S V Unit := setMany pairs
    (inserting.deeds me store own).map Deed.key <+: pairs.map Prod.fst ∧
      ((inserting.run me store own).1 = .returned () →
        (inserting.deeds me store own).map Deed.key = pairs.map Prod.fst) := by
  intro inserting
  induction pairs generalizing store own with
  | nil => exact ⟨List.prefix_rfl, fun _ => rfl⟩
  | cons pair rest ih =>
    have hbody : inserting = .call (.set pair.1 pair.2) fun _ => setMany rest := rfl
    rw [hbody, deeds, Program.run, process, Process.run_bind]
    rcases hrun : ((Operation.set pair.1 pair.2).process : Process .single n S V Unit).run me store
      own with ⟨outcome, store', own'⟩
    simp only [Operation.deeds, List.singleton_append, List.map_cons]
    cases outcome with
    | returned _ =>
      obtain ⟨hfront, hall⟩ := ih store' own'
      exact ⟨(List.prefix_cons_inj _).mpr hfront, fun hreturned =>
        congrArg (List.cons pair.1) (hall hreturned)⟩
    | unwound fault =>
      refine ⟨(List.prefix_cons_inj _).mpr List.nil_prefix, ?_⟩
      intro hreturned
      cases hreturned
    | blocked =>
      refine ⟨(List.prefix_cons_inj _).mpr List.nil_prefix, ?_⟩
      intro hreturned
      cases hreturned

/-- How the calls of thread `me` on a store of `n` shards use the router. -/
structure CallsAskOnce (n : Nat) (S V : Type) : Prop where
  /-- A call about a key asks the router for it first, and once; all else that it does is about the
  shard that the router named. -/
  keyed : ∀ {β : Type} (operation : Operation V β) (key : String), operation.key? = some key →
    (operation.process : Process .single n S V β).AsksFirst False key
  /-- So does an update, apart from what its callback does. -/
  updates : ∀ {β : Type} (key : String) (callback : Option V → Program .single S V (V × β)),
    (Process.update key fun old => (callback old).process :
      Process .single n S V (V × β)).AsksFirst True key
  /-- Any other call without a callback asks nothing, and replaces no table. -/
  others : ∀ {β : Type} (operation : Operation V β), operation.key? = none →
    (operation.process : Process .single n S V β).Only False Process.Reading
  /-- Neither does a visit, apart from what its callbacks do. -/
  visits : ∀ {β : Type} (callback : String → V → Program .single S V β),
    (Process.visit fun key value => (callback key value).process :
      Process .single n S V _).Only True Process.Reading

theorem callsAskOnce (n : Nat) (S V : Type) : CallsAskOnce n S V where
  keyed _ _ h := Operation.asksFirst_process h
  updates key _ := Process.asksFirst_update key _
  others _ h := Operation.only_process h
  visits _ := Process.only_visit _

/-- What one question for a key comes to in a store. -/
structure Store.Answers (store : Store σ V n) (key : String) : Prop where
  /-- A caller's router makes one step, and the shard is the one at the remainder of its answer. -/
  custom : ∀ (router : Router σ) (state : σ), store.routing = .custom router state →
    let answered := router.answer state (store.hasher.hashKey key) (UInt64.ofNat n)
    (store.route key).1.map Fin.val = answered.2.map (fun index => index.toNat % n) ∧
      (store.route key).2.routing = .custom router answered.1
  /-- The question itself changes no shard. -/
  shards : ∀ i, (store.route key).2.shard i = store.shard i
  /-- If the router gives up, so does the call that asked, and it has done nothing else. -/
  givesUp : ∀ (fault : Fault), (store.route key).1 = .error fault → ∀ {S β : Type}
    {callbacks : Prop} (p : Process .single n S V β), p.AsksFirst callbacks key → ∀ me own,
      p.run me store own = (.unwound fault, (store.route key).2, own)

theorem Store.answers (store : Store σ V n) (key : String) : store.Answers key where
  custom _ _ h := Store.route_custom h key
  shards := (Store.table_of_route rfl).2
  givesUp _ h _ _ _ _ hasks me own := (hasks.run_of_error (Prod.ext h rfl) me own).1

/-- **Routing happens once for each call about a key**, whatever the router, the nesting of
callbacks and the faults. Each such call asks first and then keeps to the shard it was sent to, one
question is one step of the router, and no other call asks. So a run is explained by its calls about
keys in the order in which they start: they asked the router in this order, and each shard's table is
that of a plain map to which those were made that were sent there. In particular, a router that
deals its list out in turn sends each call of a run to the next element. -/
theorem Program.routes_once (h : store.Inside me scopes) (program : Program .single S V α)
    (own : S) :
    CallsAskOnce n S V ∧ (∀ (store : Store σ V n) (key : String), store.Answers key) ∧
      (∀ pairs : List (String × V),
        let inserting : Program .single S V Unit := setMany pairs
        (inserting.deeds me store own).map Deed.key <+: pairs.map Prod.fst ∧
          ((inserting.run me store own).1 = .returned () →
            (inserting.deeds me store own).map Deed.key = pairs.map Prod.fst)) ∧
      Explains scopes (program.deeds me store own) store (program.run me store own).2.1 ∧
      ∀ (cycling : Store Nat V n) (indexes : List UInt64) (calls : Nat),
        cycling.Inside me scopes → indexes ≠ [] →
        cycling.routing = .custom (Router.cycle indexes) calls →
        ∀ k deed, (program.deeds me cycling own)[k]? = some deed →
          ∃ index i, indexes[(calls + k) % indexes.length]? = some index ∧ deed.place = .ok i ∧
            i.val = index.toNat % n := by
  refine ⟨callsAskOnce n S V, Store.answers, fun pairs => deeds_setMany me pairs store own,
    explains_deeds h program own, ?_⟩
  intro cycling indexes calls hcycling hne hrouting k deed hdeed
  have hasked := (explains_deeds hcycling program own).asked
  have hplace : (cycling.routeAll ((program.deeds me cycling own).map Deed.key)).1[k]? =
      some deed.place := by
    rw [hasked, List.getElem?_map, hdeed]
    rfl
  exact Store.routeAll_cycle hrouting hne _ hplace

end statement

/-- Four calls, two of them in the callback of another one, are dealt out to the two shards in turn.
The last one is refused by the shard of the callback, and its fault is caught. -/
theorem Program.routes_once_nested :
    let config : Config Nat := { shardCount := 2, routing := .custom (Router.cycle [0, 3]) 0 }
    let nested : Program .single Unit Nat (Nat × Unit) := do
      set "a" 1
      updateWith "a" fun old => do
        set "b" 2
        let _ ← caught (set "c" 3)
        return (old.getD 7, ())
    ∃ store : Store Nat Nat config.shards, Store.ofConfig config = .ok store ∧
      store.Inside ⟨0, 0⟩ [] ∧
      (nested.deeds ⟨0, 0⟩ store ()).map (fun deed => (deed.key, deed.place.toOption.map Fin.val)) =
        [("a", some 0), ("a", some 1), ("b", some 0), ("c", some 1)] ∧
      (nested.run ⟨0, 0⟩ store ()).2.1.entries = [("a", 1), ("b", 2), ("a", 7)] ∧
      Explains [] (nested.deeds ⟨0, 0⟩ store ()) store (nested.run ⟨0, 0⟩ store ()).2.1 := by
  intro config nested
  obtain ⟨store, hstore⟩ : ∃ store : Store Nat Nat config.shards,
      Store.ofConfig config = .ok store := ⟨_, rfl⟩
  have hinside : store.Inside ⟨0, 0⟩ [] := Store.inside_nil_iff.mpr (Store.atRest_of_ofConfig hstore)
  obtain ⟨-, -, -, hexplains, -⟩ := routes_once hinside nested ()
  refine ⟨store, hstore, hinside, ?_, ?_, hexplains⟩
  · cases hstore
    decide +kernel
  · cases hstore
    decide +kernel

end ShardStore
