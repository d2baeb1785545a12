import Mathlib.Algebra.GroupWithZero.Nat
import ShardStore.Proofs.Calls.Refused
import ShardStore.Proofs.RoutingOnce

/-!
# What the counters say

Each shard counts its look-ups, insertions, removals and requests, and some twenty calls count at
different points of their course: before the lock is taken, while it is held, after it was given
back, in one pass or in two, and only if the call gets that far. `Program.bookings` lists the calls
of a run with what can be seen of them from outside: the shard that the router named, whether that
shard let the call in, whether the key was there, and how the call ended. What each counter says is
a sum over this list (`Program.counters_are_exact`).

## Shape of the argument

`Tallies` relates a list of bookings to the stores before and after. It goes by runs one after
another (`Chains`), so the bookings of a program tally if those of each call do, inside any scopes.
-/

namespace ShardStore

/-! ## Calls and what they count -/

/-- The calls without a callback that concern the whole store, by when they look for marks. -/
inductive Sweep where
  /-- Counting and statistics look at each shard when they come to it, once. -/
  | once
  /-- A snapshot looks at all shards first. -/
  | checked
  /-- The keys and the items are counted first, which looks at each shard in turn, and then read. -/
  | counted
deriving DecidableEq, Repr

/-- A call in a run that reached a shard, as it is seen from outside. -/
inductive Booking (n : Nat) (V : Type) : Type 1 where
  /-- A call about a key that was sent to a shard: whether the shard let it in, whether the key was
  there, and its answer unless it unwound. -/
  | keyed {β : Type} (call : Keyed V β) (shard : Fin n) (entered present : Bool) (answer : Option β)
  /-- An update that was sent to a shard: whether the shard let it in, and whether it returned. -/
  | update (shard : Fin n) (entered returned : Bool)
  /-- A visit got past the check at a shard. -/
  | visit (shard : Fin n)
  /-- A call that goes through all shards: the shards that it got past on its first way, and whether
  it got past all and returned. -/
  | sweep (kind : Sweep) (past : List (Fin n)) (returned : Bool)

namespace Booking

variable {n : Nat} {V : Type}

/-- A look-up that was answered by shard `i`. -/
def isRead (i : Fin n) : Booking n V → Bool
  | .keyed (.get _) shard _ _ answer => shard = i && answer.isSome
  | .keyed (.has _) shard _ _ answer => shard = i && answer.isSome
  | _ => false

/-- A value stored in shard `i`. -/
def isWrite (i : Fin n) : Booking n V → Bool
  | .keyed (.set _ _) shard _ _ answer => shard = i && answer.isSome
  | .keyed (.setIfAbsent _ _) shard _ _ answer => shard = i && answer = some true
  | .update shard _ returned => shard = i && returned
  | _ => false

/-- A key that was found in shard `i` and removed. -/
def isRemoval (i : Fin n) : Booking n V → Bool
  | .keyed (.remove _) shard _ present answer => shard = i && answer.isSome && present
  | .keyed (.pop _) shard _ present answer => shard = i && answer.isSome && present
  | _ => false

/-- The requests for shard `i`. -/
def requests (i : Fin n) : Booking n V → Nat
  | .keyed _ shard entered _ _ => (shard = i && entered).toNat
  | .update shard entered _ => (shard = i && entered).toNat
  | .visit shard => (decide (shard = i)).toNat
  | .sweep .once past _ => (past.contains i).toNat
  | .sweep .checked _ returned => returned.toNat
  | .sweep .counted past returned => (past.contains i).toNat + returned.toNat

/-- What a call adds to a counter of shard `i`. -/
def adds (i : Fin n) : Counter → Booking n V → Nat
  | .reads, booking => (booking.isRead i).toNat
  | .writes, booking => (booking.isWrite i).toNat
  | .removes, booking => (booking.isRemoval i).toNat
  | .acquisitions, booking => booking.requests i

/-- What several calls add to a counter of shard `i`. -/
def total (i : Fin n) (counter : Counter) (bookings : List (Booking n V)) : Nat :=
  (bookings.map (adds i counter)).sum

theorem total_append (i : Fin n) (counter : Counter) (bookings bookings' : List (Booking n V)) :
    total i counter (bookings ++ bookings') =
      total i counter bookings + total i counter bookings' := by
  rw [total, List.map_append, List.sum_append]
  rfl

theorem total_cons (i : Fin n) (counter : Counter) (booking : Booking n V)
    (bookings : List (Booking n V)) :
    total i counter (booking :: bookings) = booking.adds i counter + total i counter bookings :=
  List.sum_cons

/-- Adding up a yes or no of each element is counting. -/
theorem sum_map_toNat {α : Type*} (p : α → Bool) (list : List α) :
    (list.map fun a => (p a).toNat).sum = list.countP p := by
  induction list with
  | nil => rfl
  | cons a rest ih =>
    rw [List.map_cons, List.sum_cons, ih, List.countP_cons, Nat.add_comm]
    cases p a <;> rfl

end Booking

/-! ## The bookings of a program -/

section bookings

variable {σ S V α β : Type} {n : Nat}

/-- A call about a key that ended in a certain way, if the router named a shard for it. -/
def Keyed.bookings (me : ThreadId) (store : Store σ V n) (call : Keyed V β) (outcome : Outcome β) :
    List (Booking n V) :=
  match store.route call.key with
  | (.ok i, routed) =>
    [.keyed call i (me ∉ (routed.shard i).markers) ((routed.table i).contains call.key)
      outcome.value?]
  | (.error _, _) => []

/-- A call that goes through all shards and ended in a certain way. -/
def Sweep.bookings (me : ThreadId) (store : Store σ V n) (kind : Sweep) (outcome : Outcome β) :
    List (Booking n V) :=
  [.sweep kind (store.passed me (List.finRange n)) outcome.value?.isSome]

/-- An operation that ended in a certain way. -/
def Operation.bookings (me : ThreadId) (store : Store σ V n) :
    {β : Type} → Operation V β → Outcome β → List (Booking n V)
  | _, .set key value, outcome => (Keyed.set key value).bookings me store outcome
  | _, .setIfAbsent key value, outcome => (Keyed.setIfAbsent key value).bookings me store outcome
  | _, .get key, outcome => (Keyed.get key).bookings me store outcome
  | _, .has key, outcome => (Keyed.has key).bookings me store outcome
  | _, .remove key, outcome => (Keyed.remove key).bookings me store outcome
  | _, .pop key, outcome => (Keyed.pop key).bookings me store outcome
  | _, .shardIndex _, _ => []
  | _, .shardCount, _ => []
  | _, .count, outcome => Sweep.once.bookings me store outcome
  | _, .keys, outcome => Sweep.counted.bookings me store outcome
  | _, .items, outcome => Sweep.counted.bookings me store outcome
  | _, .stats, outcome => Sweep.once.bookings me store outcome
  | _, .snapshot, outcome => Sweep.checked.bookings me store outcome

/-- An update that returned or not, with what its callback did, if it was run. -/
def updateBookings (me : ThreadId) (key : String) (returned : Bool)
    (callback : Option V → Store σ V n → S → List (Booking n V)) (store : Store σ V n) (own : S) :
    List (Booking n V) :=
  match store.route key with
  | (.ok i, routed) =>
    if me ∈ (routed.shard i).markers then [.update i false returned]
    else
      .update i true returned ::
        callback (routed.table i)[key]? (routed.modify i (Shard.opened me .exclusive)) own
  | (.error _, _) => []

/-- The visit of a shard, if the shard let it in, with what its callbacks did. -/
def visitBookings (me : ThreadId)
    (run : String × V → Store σ V n → S → Outcome β × Store σ V n × S)
    (callback : String × V → Store σ V n → S → List (Booking n V)) (i : Fin n) (store : Store σ V n)
    (own : S) : List (Booking n V) :=
  if me ∈ (store.shard i).markers then []
  else
    .visit i ::
      alongRuns run callback (store.table i).toList (store.modify i (Shard.opened me .shared)) own

/-- The calls in a run of a program, in the order in which they start. -/
def Program.bookings (me : ThreadId) :
    {α : Type} → Program .single S V α → Store σ V n → S → List (Booking n V)
  | _, .done _, _, _ => []
  | _, .unwind _, _, _ => []
  | _, .call operation next, store, own =>
    let ran := (operation.process : Process .single n S V _).run me store own
    operation.bookings me store ran.1 ++ afterRun ran fun b => (next b).bookings me
  | _, .withOwn change next, store, own =>
    let (b, own) := change own
    (next b).bookings me store own
  | _, .update key callback next, store, own =>
    let ran := (Process.update key fun old => (callback old).process).run me store own
    updateBookings me key ran.1.value?.isSome (fun old => (callback old).bookings me) store own ++
      afterRun ran fun stored => (next stored).bookings me
  | _, .visit callback next, store, own =>
    let ran := (Process.visit fun key value => (callback key value).process).run me store own
    let shardRun (i : Fin n) : Store σ V n → S → _ :=
      (Process.visitShard (fun key value => (callback key value).process) i).run me
    let shardBookings (i : Fin n) : Store σ V n → S → List (Booking n V) :=
      visitBookings me (fun entry => (callback entry.1 entry.2).run me)
        (fun entry => (callback entry.1 entry.2).bookings me) i
    alongRuns shardRun shardBookings (List.finRange n) store own ++
      afterRun ran fun visited => (next visited).bookings me
  | _, .attempt part next, store, own =>
    part.bookings me store own ++
      match part.run me store own with
      | (.returned b, store, own) => (next (.ok b)).bookings me store own
      | (.unwound fault, store, own) => (next (.error fault)).bookings me store own
      | (.blocked, _, _) => []

end bookings

/-! ## Runs one after another -/

section chains

variable {σ S V α β γ : Type} {n : Nat} {δ : Type 1} {me : ThreadId}
  {scopes : List (Fin n × Access)} {store : Store σ V n}
  {R : List δ → Store σ V n → Store σ V n → Prop}

/-- What relates a list to the stores before and after goes by lists one after another. -/
structure Chains (R : List δ → Store σ V n → Store σ V n → Prop) : Prop where
  nil : ∀ store, R [] store store
  append : ∀ {list list' : List δ} {store store' store'' : Store σ V n}, R list store store' →
    R list' store' store'' → R (list ++ list') store store''

/-- One course after another, if the second is related wherever it starts. -/
theorem Chains.andThen (hR : Chains R) {p : Process .single n S V β}
    {q : β → Process .single n S V α} {list : List δ} {listNext : β → Store σ V n → S → List δ}
    {own : S} (hp : R list store (p.run me store own).2.1)
    (hinside : (p.run me store own).2.1.Inside me scopes)
    (hq : ∀ b (store' : Store σ V n) own', store'.Inside me scopes →
      R (listNext b store' own') store' ((q b).run me store' own').2.1) :
    R (list ++ afterRun (p.run me store own) listNext) store ((p.bind q).run me store own).2.1 := by
  rw [Process.run_bind]
  rcases hrun : p.run me store own with ⟨outcome, store', own'⟩
  rw [hrun] at hp hinside
  cases outcome with
  | returned b => exact hR.append hp (hq b store' own' hinside)
  | unwound fault => simpa only [afterRun, List.append_nil] using hp
  | blocked => simpa only [afterRun, List.append_nil] using hp

/-- Courses one after another, if each is related wherever it starts. -/
theorem Chains.alongRuns (hR : Chains R) {ι : Type} {p : ι → Process .single n S V γ}
    {f : ι → Process .single n S V β} {g : ι → γ → β} {list : ι → Store σ V n → S → List δ}
    (hf : ∀ i, f i = (p i).bind fun c => .done (g i c)) (hkeeps : ∀ i, (p i).Keeps .idle .idle)
    (hp : ∀ i (store' : Store σ V n) own', store'.Inside me scopes →
      R (list i store' own') store' ((p i).run me store' own').2.1)
    (indices : List ι) (h : store.Inside me scopes) (own : S) :
    R (alongRuns (fun i => (p i).run me) list indices store own) store
      ((indices.mapM f).run me store own).2.1 := by
  induction indices generalizing store own with
  | nil => exact hR.nil store
  | cons i rest ih =>
    have hbody : (i :: rest).mapM f =
        (p i).bind fun c => (rest.mapM f).bind fun values => .done (g i c :: values) := by
      rw [List.mapM_cons, hf, Process.bind_eq, Process.bind_assoc]
      rfl
    rw [hbody]
    refine hR.andThen (hp i store own h) ((hkeeps i).run_inside h own).2.1
      fun c store' own' h' => ?_
    rw [Process.run_bind_done]
    exact ih h' own'

end chains

/-! ## Bookings tally -/

/-- The counters of one store have grown from those of another by what the bookings say. -/
def Tallies {σ V : Type} {n : Nat} (bookings : List (Booking n V)) (store store' : Store σ V n) :
    Prop :=
  ∀ i, (∀ counter, (store'.shard i).tally.get counter =
      (store.shard i).tally.get counter + UInt64.ofNat (Booking.total i counter bookings)) ∧
    (store'.shard i).tally.waitNanos = (store.shard i).tally.waitNanos

namespace Tally

/-- A counter after several events has grown by the number of those that it counts. -/
theorem get_bumpAll (tally : Tally) (events : List Counter) (counter : Counter) :
    (tally.bumpAll events).get counter =
      tally.get counter + UInt64.ofNat (events.count counter) := by
  induction events generalizing tally with
  | nil => exact (UInt64.add_zero _).symm
  | cons event rest ih =>
    have hstep : tally.bumpAll (event :: rest) = (tally.bump event).bumpAll rest := rfl
    rw [hstep, ih, get_bump, List.count_cons]
    by_cases heq : counter = event
    · subst heq
      rw [if_pos rfl, if_pos (beq_self_eq_true _), UInt64.ofNat_add, UInt64.add_assoc,
        UInt64.add_comm (UInt64.ofNat _)]
      rfl
    · rw [if_neg heq, if_neg (by simpa using Ne.symm heq), Nat.add_zero]

theorem waitNanos_bump (tally : Tally) (event : Counter) :
    (tally.bump event).waitNanos = tally.waitNanos := by
  cases event <;> rfl

theorem waitNanos_bumpAll (tally : Tally) (events : List Counter) :
    (tally.bumpAll events).waitNanos = tally.waitNanos := by
  induction events generalizing tally with
  | nil => rfl
  | cons event rest ih => exact (ih (tally.bump event)).trans (tally.waitNanos_bump event)

end Tally

section tallies

variable {σ S V α β : Type} {n : Nat} {me : ThreadId} {scopes : List (Fin n × Access)}
  {store store' store'' : Store σ V n} {bookings bookings' : List (Booking n V)}

theorem chains_tallies :
    Chains (Tallies : List (Booking n V) → Store σ V n → Store σ V n → Prop) where
  nil store i := ⟨fun counter => (UInt64.add_zero _).symm, rfl⟩
  append h h' i := by
    refine ⟨fun counter => ?_, (h' i).2.trans (h i).2⟩
    rw [(h' i).1, (h i).1, Booking.total_append, UInt64.ofNat_add, UInt64.add_assoc]

/-- Bookings tally between stores with the same tallies. -/
theorem Tallies.congr (h : Tallies bookings store store')
    (htally : ∀ i, (store''.shard i).tally = (store'.shard i).tally) :
    Tallies bookings store store'' := fun i => by
  rw [htally i]
  exact h i

/-- No booking tallies where no tally has changed. -/
theorem tallies_nil (htally : ∀ i, (store'.shard i).tally = (store.shard i).tally) :
    Tallies [] store store' :=
  (chains_tallies.nil store).congr htally

/-- Where each shard has counted some events, they are what the bookings say. -/
theorem tallies_of_bumpAll (events : Fin n → List Counter)
    (htally : ∀ i, (store'.shard i).tally = (store.shard i).tally.bumpAll (events i))
    (hevents : ∀ i counter, Booking.total i counter bookings = (events i).count counter) :
    Tallies bookings store store' := fun i => by
  rw [htally i]
  exact ⟨fun counter => by rw [Tally.get_bumpAll, hevents], Tally.waitNanos_bumpAll _ _⟩

/-! ### Calls about a key -/

/-- A call that another shard has to do with adds nothing here. -/
theorem Booking.adds_keyed_of_ne {i j : Fin n} (h : j ≠ i) (call : Keyed V β)
    (entered present : Bool) (answer : Option β) (counter : Counter) :
    (keyed call j entered present answer).adds i counter = 0 := by
  cases counter <;> cases call <;> simp [adds, isRead, isWrite, isRemoval, requests, h]

/-- A call that was refused adds nothing. -/
theorem Booking.adds_keyed_refused (call : Keyed V β) (i j : Fin n) (present : Bool)
    (counter : Counter) : (keyed call j false present none).adds i counter = 0 := by
  cases counter <;> cases call <;> simp [adds, isRead, isWrite, isRemoval, requests]

/-- A call that was let in adds what it counts. -/
theorem Booking.adds_keyed (call : Keyed V β) (i : Fin n) (table : Table V) (counter : Counter) :
    (keyed call i true (table.contains call.key) (some (call.answer table))).adds i counter =
      (Counter.acquisitions :: call.events table).count counter := by
  cases call with
  | setIfAbsent key value =>
    simp only [Keyed.events]
    cases hfound : table.contains key <;> cases counter <;>
      simp [adds, isRead, isWrite, isRemoval, requests, Keyed.answer, hfound]
  | remove key =>
    simp only [Keyed.events]
    cases hfound : table.contains key <;> cases counter <;>
      simp [adds, isRead, isWrite, isRemoval, requests, Keyed.key, hfound]
  | pop key =>
    simp only [Keyed.events]
    cases hfound : table.contains key <;> cases counter <;>
      simp [adds, isRead, isWrite, isRemoval, requests, Keyed.key, hfound]
  | _ => cases counter <;> simp [adds, isRead, isWrite, isRemoval, requests, Keyed.events]

/-- A call without a callback tallies. -/
theorem tallies_keyed (h : store.Inside me scopes) (call : Keyed V β) (own : S) :
    let ran := (call.operation.process : Process .single n S V β).run me store own
    Tallies (call.bookings me store ran.1) store ran.2.1 := by
  have hkey : call.operation.key? = some call.key := by cases call <;> rfl
  rcases hroute : store.route call.key with ⟨place, routed⟩
  obtain ⟨-, hshard⟩ := Store.table_of_route hroute
  cases place with
  | error fault =>
    have hasks : (call.operation.process : Process .single n S V β).AsksFirst False call.key :=
      Operation.asksFirst_process hkey
    simp only [(hasks.run_of_error hroute me own).1, Keyed.bookings, hroute]
    exact tallies_nil fun i => congrArg Shard.tally (hshard i)
  | ok i =>
    have hrouted := (h.route hroute).1
    simp only [Keyed.bookings, hroute]
    by_cases hmark : me ∈ (routed.shard i).markers
    · rw [Process.run_keyed_refused me call hroute hmark own]
      refine tallies_of_bumpAll (fun _ => []) (fun j => congrArg Shard.tally (hshard j))
        fun j counter => ?_
      simpa [Booking.total, hmark, Outcome.value?] using
        Booking.adds_keyed_refused call j i ((routed.table i).contains call.key) counter
    · obtain ⟨-, hlock⟩ := hrouted.admits_of_notMem hmark call.access
      rw [Process.run_keyed me call hroute hmark hlock own]
      refine tallies_of_bumpAll
        (fun j => if i = j then .acquisitions :: call.events (routed.table i) else [])
        (fun j => ?_) fun j counter => ?_
      · rw [Store.shard_modify, ← hshard j]
        split
        · next hij =>
          subst hij
          rfl
        · rfl
      · rw [Booking.total_cons, show Booking.total j counter ([] : List (Booking n V)) = 0 from rfl,
          Nat.add_zero, Outcome.value?, decide_eq_true hmark]
        split
        · next hij =>
          subst hij
          exact Booking.adds_keyed call i (routed.table i) counter
        · next hij => exact Booking.adds_keyed_of_ne hij call _ _ _ counter

/-! ### Calls that go through all shards -/

/-- The shards that such a call requests, in order. -/
def Sweep.requests (me : ThreadId) (store : Store σ V n) (kind : Sweep) : List (Fin n) :=
  let past := store.passed me (List.finRange n)
  let all := if store.refusal? me (List.finRange n) = none then List.finRange n else []
  match kind with
  | .once => past
  | .checked => all
  | .counted => past ++ all

/-- When an operation looks for marks that goes through all shards. -/
def Operation.sweep? : {β : Type} → Operation V β → Option Sweep
  | _, .count => some .once
  | _, .keys => some .counted
  | _, .items => some .counted
  | _, .stats => some .once
  | _, .snapshot => some .checked
  | _, _ => none

/-- An operation that reads every table first leaves what it passed behind if a mark is in its
way. -/
theorem Process.run_captureAll_bind_refused {p : Process .single n S V β}
    {rest : List (Table V) → Process .single n S V β} (hbody : p = captureAll.bind rest)
    (h : store.Inside me scopes) {fault : Fault}
    (hrefusal : store.refusal? me (List.finRange n) = some fault) (own : S) :
    p.run me store own =
      (.unwound fault, store.requestAll (store.passed me (List.finRange n)), own) := by
  rw [hbody, run_bind_of_unless (run_captureAll_inside h own), hrefusal]
  rfl

/-- Such an operation leaves its requests behind, and returns unless a mark is in its way. -/
theorem Operation.run_sweep (h : store.Inside me scopes) (operation : Operation V β) {kind : Sweep}
    (hkind : operation.sweep? = some kind) (own : S) :
    ∃ outcome, (operation.process : Process .single n S V β).run me store own =
        (outcome, store.requestAll (kind.requests me store), own) ∧
      outcome.value?.isSome = (store.refusal? me (List.finRange n)).isNone := by
  cases hrefusal : store.refusal? me (List.finRange n) with
  | some fault =>
    cases operation with
    | count =>
      cases hkind
      exact ⟨_, Process.run_captureAll_bind_refused rfl h hrefusal own, rfl⟩
    | stats =>
      cases hkind
      exact ⟨_, Process.run_captureAll_bind_refused rfl h hrefusal own, rfl⟩
    | keys =>
      cases hkind
      simp only [Sweep.requests, hrefusal, reduceCtorEq, if_false, List.append_nil]
      exact ⟨_, Process.run_captureAll_bind_refused (Process.bind_assoc ..) h hrefusal own, rfl⟩
    | items =>
      cases hkind
      simp only [Sweep.requests, hrefusal, reduceCtorEq, if_false, List.append_nil]
      exact ⟨_, Process.run_captureAll_bind_refused (Process.bind_assoc ..) h hrefusal own, rfl⟩
    | snapshot =>
      cases hkind
      simp only [Sweep.requests, hrefusal, reduceCtorEq, if_false]
      exact ⟨.unwound fault, Process.run_collectAll_bind_refused hrefusal _ own, rfl⟩
    | _ => cases hkind
  | none =>
    have hpassed := Store.passed_of_refusal?_eq_none hrefusal
    have hadmits (i : Fin n) : store.Admits me i .shared := by
      refine h.admits_of_notMem (fun hmark => ?_) .shared
      rw [Store.refusal?, if_pos ⟨i, List.mem_finRange i, hmark⟩] at hrefusal
      cases hrefusal
    cases operation with
    | count =>
      cases hkind
      simp only [Sweep.requests, hpassed]
      exact ⟨_, Process.run_countAll hadmits own, rfl⟩
    | stats =>
      cases hkind
      simp only [Sweep.requests, hpassed]
      exact ⟨_, Process.run_stats hadmits own, rfl⟩
    | keys =>
      cases hkind
      simp only [Sweep.requests, hpassed, hrefusal, if_true, Store.requestAll_append]
      exact ⟨_, Process.run_keys hadmits own, rfl⟩
    | items =>
      cases hkind
      simp only [Sweep.requests, hpassed, hrefusal, if_true, Store.requestAll_append]
      exact ⟨_, Process.run_items hadmits own, rfl⟩
    | snapshot =>
      cases hkind
      simp only [Sweep.requests, hrefusal, if_true]
      exact ⟨_, Process.run_snapshot hadmits own, rfl⟩
    | _ => cases hkind

theorem Shard.tally_requested (shard : Shard V) (count : Nat) :
    (Shard.requested^[count] shard).tally =
      shard.tally.bumpAll (List.replicate count .acquisitions) := by
  induction count generalizing shard with
  | zero => rfl
  | succ count ih => exact ih shard.requested

/-- Going through all shards tallies. -/
theorem tallies_sweep (h : store.Inside me scopes) (operation : Operation V β) {kind : Sweep}
    (hkind : operation.sweep? = some kind) (own : S) :
    let ran := (operation.process : Process .single n S V β).run me store own
    Tallies (kind.bookings me store ran.1) store ran.2.1 := by
  obtain ⟨outcome, hrun, hreturned⟩ := operation.run_sweep h hkind own
  rw [hrun]
  refine tallies_of_bumpAll
    (fun i => List.replicate ((kind.requests me store).count i) .acquisitions)
    (fun i => ?_) fun i counter => ?_
  · rw [Store.shard_requestAll, Shard.tally_requested]
  · have hpast : (store.passed me (List.finRange n)).count i =
        ((store.passed me (List.finRange n)).contains i).toNat := by
      rw [(Store.nodup_passed (List.nodup_finRange n)).count]
      split <;> simp_all
    have hall :
        (if store.refusal? me (List.finRange n) = none then List.finRange n else []).count i =
          outcome.value?.isSome.toNat := by
      rw [hreturned]
      cases store.refusal? me (List.finRange n) with
      | none => exact List.count_eq_one_of_mem (List.nodup_finRange n) (List.mem_finRange i)
      | some fault => rfl
    have htotal : Booking.total i counter (kind.bookings me store outcome) =
        (Booking.sweep kind (store.passed me (List.finRange n)) outcome.value?.isSome :
          Booking n V).adds i counter := Nat.add_zero _
    rw [htotal]
    cases counter with
    | acquisitions =>
      rw [List.count_replicate_self]
      cases kind with
      | once => exact hpast.symm
      | checked => exact hall.symm
      | counted => exact (congrArg₂ (· + ·) hpast hall).symm.trans List.count_append.symm
    | _ =>
      rw [List.count_replicate]
      rfl

/-- Asking for a key's shard leaves what the router leaves. -/
theorem Process.run_shardIndex (me : ThreadId) (key : String) (store : Store σ V n) (own : S) :
    (((Operation.shardIndex key).process : Process .single n S V Nat).run me store own).2.1 =
      (store.route key).2 := by
  rcases hroute : store.route key with ⟨place, routed⟩
  rw [Operation.process, bind_eq, run_perform_bind, Action.perform, hroute]
  cases place <;> rfl

/-- Every operation tallies. -/
theorem tallies_operation (h : store.Inside me scopes) (operation : Operation V β) (own : S) :
    let ran := (operation.process : Process .single n S V β).run me store own
    Tallies (operation.bookings me store ran.1) store ran.2.1 := by
  cases operation with
  | set key value => exact tallies_keyed h (.set key value) own
  | setIfAbsent key value => exact tallies_keyed h (.setIfAbsent key value) own
  | get key => exact tallies_keyed h (.get key) own
  | has key => exact tallies_keyed h (.has key) own
  | remove key => exact tallies_keyed h (.remove key) own
  | pop key => exact tallies_keyed h (.pop key) own
  | shardIndex key =>
    simp only [Process.run_shardIndex]
    exact tallies_nil fun i => congrArg Shard.tally ((Store.table_of_route rfl).2 i)
  | shardCount => exact chains_tallies.nil store
  | count => exact tallies_sweep h .count rfl own
  | keys => exact tallies_sweep h .keys rfl own
  | items => exact tallies_sweep h .items rfl own
  | stats => exact tallies_sweep h .stats rfl own
  | snapshot => exact tallies_sweep h .snapshot rfl own

/-! ### Updates and visits -/

/-- A call whose callback runs between what it counts first and what it counts later, both at shard
`i`. -/
theorem Tallies.around {opened inner : Store σ V n} (h : Tallies bookings opened inner) (i : Fin n)
    (first later : List Counter) {booking : Booking n V}
    (hfirst : ∀ j, (opened.shard j).tally =
      (store.shard j).tally.bumpAll (if i = j then first else []))
    (hlater : ∀ j, (store'.shard j).tally =
      (inner.shard j).tally.bumpAll (if i = j then later else []))
    (hadds : ∀ j counter, booking.adds j counter =
      (if i = j then first ++ later else []).count counter) :
    Tallies (booking :: bookings) store store' := fun j => by
  have hcount (counter : Counter) : booking.adds j counter =
      (if i = j then first else []).count counter +
        (if i = j then later else []).count counter := by
    rw [hadds, ← List.count_append]
    split <;> rfl
  refine ⟨fun counter => ?_, ?_⟩
  · rw [hlater, Tally.get_bumpAll, (h j).1, hfirst, Tally.get_bumpAll, Booking.total_cons, hcount]
    simp only [UInt64.ofNat_add]
    ac_rfl
  · rw [hlater, Tally.waitNanos_bumpAll, (h j).2, hfirst, Tally.waitNanos_bumpAll]

theorem Store.tally_modify (store : Store σ V n) (i j : Fin n) {change : Shard V → Shard V}
    (events : List Counter) (h : ∀ shard, (change shard).tally = shard.tally.bumpAll events) :
    ((store.modify i change).shard j).tally =
      (store.shard j).tally.bumpAll (if i = j then events else []) := by
  rw [shard_modify]
  split
  · exact h _
  · rfl

theorem Booking.adds_update (i : Fin n) (returned : Bool) (j : Fin n) (counter : Counter) :
    (update i true returned : Booking n V).adds j counter =
      (if i = j then [.acquisitions] ++ (if returned then [.writes] else []) else []).count
        counter := by
  by_cases hij : i = j <;> cases returned <;> cases counter <;>
    simp [adds, isRead, isWrite, isRemoval, requests, hij]

theorem Booking.adds_update_refused (i j : Fin n) (counter : Counter) :
    (update i false false : Booking n V).adds j counter = 0 := by
  cases counter <;> simp [adds, isRead, isWrite, isRemoval, requests]

theorem Booking.adds_visit (i j : Fin n) (counter : Counter) :
    (visit i : Booking n V).adds j counter =
      (if i = j then [.acquisitions] ++ [] else []).count counter := by
  by_cases hij : i = j <;> cases counter <;>
    simp [adds, isRead, isWrite, isRemoval, requests, hij]

/-- An update tallies if its callback does, wherever it starts. -/
theorem tallies_update (h : store.Inside me scopes) (key : String)
    {callback : Option V → Process .single n S V (V × β)}
    {list : Option V → Store σ V n → S → List (Booking n V)}
    (hkeeps : ∀ old, (callback old).Keeps .idle .idle)
    (hcallback : ∀ old {scopes : List (Fin n × Access)} {store : Store σ V n},
      store.Inside me scopes → ∀ own, Tallies (list old store own) store
        ((callback old).run me store own).2.1) (own : S) :
    let ran := (Process.update key callback).run me store own
    Tallies (updateBookings me key ran.1.value?.isSome list store own) store ran.2.1 := by
  rcases hroute : store.route key with ⟨place, routed⟩
  obtain ⟨-, hshard⟩ := Store.table_of_route hroute
  have hsame (j : Fin n) : (routed.shard j).tally = (store.shard j).tally :=
    congrArg Shard.tally (hshard j)
  cases place with
  | error fault =>
    have hrun := ((Process.asksFirst_update key callback).run_of_error hroute me own).1
    simp only [hrun, updateBookings, hroute]
    exact tallies_nil hsame
  | ok i =>
    have hrouted := (h.route hroute).1
    by_cases hmark : me ∈ (routed.shard i).markers
    · -- Its shard refuses it.
      simp only [Process.run_update_refused hroute hmark callback own, updateBookings, hroute,
        if_pos hmark]
      refine tallies_of_bumpAll (fun _ => []) hsame fun j counter => ?_
      exact (Nat.add_zero _).trans (Booking.adds_update_refused i j counter)
    · have hadmits := hrouted.admits_of_notMem hmark .exclusive
      have hi : i ∉ scopes.map Prod.fst := fun hi => hmark (hrouted.mem_markers hi)
      have hopened : (routed.modify i (Shard.opened me .exclusive)).Inside me
          ((i, .exclusive) :: scopes) := hrouted.opened hi
      have hinner := hcallback (routed.table i)[key]? hopened own
      obtain ⟨hnot, -, -⟩ := (hkeeps (routed.table i)[key]?).run_inside hopened own
      have hfirst (j : Fin n) : ((routed.modify i (Shard.opened me .exclusive)).shard j).tally =
          (store.shard j).tally.bumpAll (if i = j then [.acquisitions] else []) := by
        rw [routed.tally_modify i j [.acquisitions] fun _ => rfl, hsame]
      simp only [Process.run_update hroute hadmits, updateBookings, hroute, if_neg hmark]
      rcases hrun : (callback (routed.table i)[key]?).run me
        (routed.modify i (Shard.opened me .exclusive)) own with ⟨outcome, inner, own'⟩
      rw [hrun] at hinner hnot
      -- Only a callback that returns is followed by a write.
      cases outcome with
      | returned stored =>
        exact hinner.around i [.acquisitions] [.writes] hfirst
          (fun j => inner.tally_modify i j [.writes] fun _ => rfl) (Booking.adds_update i true)
      | unwound fault =>
        exact hinner.around i [.acquisitions] [] hfirst
          (fun j => inner.tally_modify i j [] fun _ => rfl) (Booking.adds_update i false)
      | blocked => exact absurd rfl hnot

/-- A visit of one shard tallies if its callback does, wherever it starts. -/
theorem tallies_visitShard (h : store.Inside me scopes)
    {callback : String → V → Process .single n S V β}
    {list : String × V → Store σ V n → S → List (Booking n V)}
    (hkeeps : ∀ key value, (callback key value).Keeps .idle .idle)
    (hcallback : ∀ (entry : String × V) {scopes : List (Fin n × Access)} {store : Store σ V n},
      store.Inside me scopes → ∀ own, Tallies (list entry store own) store
        ((callback entry.1 entry.2).run me store own).2.1) (i : Fin n) (own : S) :
    Tallies
      (visitBookings me (fun entry => (callback entry.1 entry.2).run me) list i store own) store
      ((Process.visitShard callback i).run me store own).2.1 := by
  by_cases hmark : me ∈ (store.shard i).markers
  · have hrun : (Process.visitShard callback i).run me store own =
        (.unwound .reentrant, store, own) := by
      rw [Process.visitShard, Process.bind_eq, Process.run_request_bind_refused me hmark]
    rw [visitBookings, if_pos hmark, hrun]
    exact chains_tallies.nil store
  · have hadmits := h.admits_of_notMem hmark .shared
    have hopened : (store.modify i (Shard.opened me .shared)).Inside me ((i, .shared) :: scopes) :=
      h.opened fun hi => hmark (h.mem_markers hi)
    have hentries := chains_tallies.alongRuns (f := fun entry : String × V =>
        (callback entry.1 entry.2).bind fun b => .done (entry, b)) (fun _ => rfl)
      (fun entry => hkeeps entry.1 entry.2)
      (fun entry store' own' h' => hcallback entry h' own') (store.table i).toList hopened own
    rw [visitBookings, if_neg hmark, Process.run_visitShard hadmits]
    have hbody : Process.visitEntries callback (store.table i).toList =
        (store.table i).toList.mapM fun entry : String × V =>
          (callback entry.1 entry.2).bind fun b => .done (entry, b) := rfl
    rw [hbody]
    rcases hrun : ((store.table i).toList.mapM fun entry : String × V =>
        (callback entry.1 entry.2).bind fun b => .done (entry, b)).run me
      (store.modify i (Shard.opened me .shared)) own with ⟨outcome, inner, own'⟩
    rw [hrun] at hentries
    -- However the callbacks end, closing the shard counts nothing.
    have haround {left : Store σ V n}
        (hleft : ∀ j, (left.shard j).tally =
          (inner.shard j).tally.bumpAll (if i = j then [] else [])) :=
      hentries.around i [.acquisitions] []
        (fun j => store.tally_modify i j [.acquisitions] fun _ => rfl) hleft (Booking.adds_visit i)
    cases outcome with
    | returned visited => exact haround fun j => inner.tally_modify i j [] fun _ => rfl
    | unwound fault => exact haround fun j => inner.tally_modify i j [] fun _ => rfl
    | blocked => exact haround fun j => by rw [ite_self]; rfl

/-- **Every run tallies with its bookings**, inside any scopes. -/
theorem Program.tallies_bookings (h : store.Inside me scopes) (program : Program .single S V α)
    (own : S) : Tallies (program.bookings me store own) store (program.run me store own).2.1 := by
  induction program generalizing store scopes own with
  | done value => exact chains_tallies.nil store
  | unwind fault => exact chains_tallies.nil store
  | call operation next ih =>
    exact chains_tallies.andThen (tallies_operation h operation own)
      (operation.keeps_process.run_inside h own).2.1 fun b store' own' h' => ih b h' own'
  | withOwn change next ih => exact ih _ h _
  | update key callback next ihcallback ih =>
    have hkeeps (old : Option _) := (callback old).keeps_process (n := n)
    have hupdate := tallies_update h key hkeeps (fun old _ _ h' own' => ihcallback old h' own') own
    exact chains_tallies.andThen hupdate ((Process.keeps_update hkeeps).run_inside h own).2.1
      fun stored store' own' h' => ih stored h' own'
  | visit callback next ihcallback ih =>
    have hkeeps (key : String) (value : V) := (callback key value).keeps_process (n := n)
    have hshards := chains_tallies.alongRuns (fun _ => (Process.bind_done _).symm)
      (fun i => Process.keeps_visitShard hkeeps i)
      (fun i store' own' h' => tallies_visitShard h' hkeeps
        (fun entry _ _ h'' own'' => ihcallback entry.1 entry.2 h'' own'') i own')
      (List.finRange n) h own
    have hsame :
        ((Process.visit fun key value => (callback key value).process).run me store own).2 =
          (((List.finRange n).mapM (Process.visitShard fun key value =>
            (callback key value).process)).run me store own).2 :=
      Process.run_bind_done _ _ me store own
    rw [← hsame] at hshards
    exact chains_tallies.andThen hshards ((Process.keeps_visit hkeeps).run_inside h own).2.1
      fun visited store' own' h' => ih visited h' own'
  | attempt part next ihpart ih =>
    have hpart := ihpart h own
    obtain ⟨-, hinside, -⟩ := part.keeps_process.run_inside h own
    rw [run] at hpart
    rw [bookings, run, run, process, Process.run]
    rcases hrun : part.process.run me store own with ⟨outcome, store', own'⟩
    rw [hrun] at hpart hinside
    cases outcome with
    | returned b => exact chains_tallies.append hpart (ih (.ok b) hinside own')
    | unwound fault => exact chains_tallies.append hpart (ih (.error fault) hinside own')
    | blocked => simpa only [List.append_nil] using hpart
  | onThread may => cases may

end tallies

/-! ## The statement -/

/-- A tally of shard `i` says exactly what the calls of a run came to there. -/
structure Tally.Exact {n : Nat} {V : Type} (tally : Tally) (i : Fin n)
    (bookings : List (Booking n V)) : Prop where
  reads : tally.reads.toNat = bookings.countP (Booking.isRead i)
  writes : tally.writes.toNat = bookings.countP (Booking.isWrite i)
  removes : tally.removes.toNat = bookings.countP (Booking.isRemoval i)
  acquisitions : tally.acquisitions.toNat = (bookings.map (Booking.requests i)).sum
  /-- Waits are not timed. -/
  waits : tally.waitNanos = 0

/-- **Every counter is exact.** One thread runs any program on a new store, with callbacks nested to
any depth, faults caught or not, snapshots and counting wherever they stand. Then each shard has
counted as reads the look-ups that it answered; as writes the values that were stored in it; as
removals the keys that were found in it and removed; and as requests the calls about keys that it
let in, one for each count, visit and statistics call that got past it, one for each snapshot that
got past all shards, and for the keys and the items one for being counted, if the call got past it,
and one for being read, if it got past all. -/
theorem Program.counters_are_exact {σ S V α : Type} {config : Config σ}
    {store : Store σ V config.shards} (hstore : Store.ofConfig config = .ok store) (me : ThreadId)
    (program : Program .single S V α) (own : S) (i : Fin config.shards)
    (hfew : ∀ counter, Booking.total i counter (program.bookings me store own) < UInt64.size) :
    (((program.run me store own).2.1.shard i).tally).Exact i (program.bookings me store own) := by
  have hinside : store.Inside me [] := Store.inside_nil_iff.mpr (Store.atRest_of_ofConfig hstore)
  obtain ⟨htally, hwaits⟩ := program.tallies_bookings hinside own i
  rw [(Store.of_ofConfig hstore).2.2 i] at htally hwaits
  have hexact (counter : Counter) :
      (((program.run me store own).2.1.shard i).tally.get counter).toNat =
        Booking.total i counter (program.bookings me store own) := by
    have hzero : ({} : Tally).get counter = 0 := by cases counter <;> rfl
    rw [htally, hzero, UInt64.zero_add]
    exact UInt64.toNat_ofNat_of_lt' (hfew counter)
  exact
    { reads := (hexact .reads).trans (Booking.sum_map_toNat ..)
      writes := (hexact .writes).trans (Booking.sum_map_toNat ..)
      removes := (hexact .removes).trans (Booking.sum_map_toNat ..)
      acquisitions := hexact .acquisitions
      waits := hwaits }

/-- Two shards. An update whose callback is refused its own key, counts as far as it can and unwinds;
a visit whose callbacks ask for the keys in vain; then a snapshot, the keys and a removal. -/
theorem Program.counters_are_exact_nested :
    let config : Config Unit := { shardCount := 2 }
    let nested : Program .single Unit Nat (Option Nat) := do
      setMany [("a", 1), ("b", 2)]
      let _ ← caught (updateWith "a" fun _ => do
        let _ ← caught (get "a")
        let _ ← caught count
        (.unwind (.callback "no") : Program .single Unit Nat (Nat × Unit)))
      let _ ← forEach fun _ _ => caught keys
      let _ ← snapshot
      let _ ← keys
      pop "b"
    ∃ store : Store Unit Nat config.shards, Store.ofConfig config = .ok store ∧
      (List.finRange _).map (fun i =>
        ((nested.run ⟨0, 0⟩ store ()).2.1.shard i).tally.acquisitions.toNat) = [7, 6] ∧
      (∀ i counter, Booking.total i counter (nested.bookings ⟨0, 0⟩ store ()) < UInt64.size) ∧
      ∀ i, ((nested.run ⟨0, 0⟩ store ()).2.1.shard i).tally.Exact i
        (nested.bookings ⟨0, 0⟩ store ()) := by
  intro config nested
  obtain ⟨store, hstore⟩ : ∃ store : Store Unit Nat config.shards,
      Store.ofConfig config = .ok store := ⟨_, rfl⟩
  have hfew : ∀ i counter,
      Booking.total i counter (nested.bookings ⟨0, 0⟩ store ()) < UInt64.size := by
    cases hstore
    intro i counter
    cases counter <;> revert i <;> decide +kernel
  refine ⟨store, hstore, ?_, hfew, fun i => counters_are_exact hstore ⟨0, 0⟩ nested () i (hfew i)⟩
  cases hstore
  decide +kernel

end ShardStore
