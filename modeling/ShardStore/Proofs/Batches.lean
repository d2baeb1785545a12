import Mathlib.Logic.Function.Iterate
import ShardStore.Proofs.Calls.Refused
import ShardStore.Proofs.Courses.Discipline
import ShardStore.Proofs.Placement

/-!
# Batches are applied up to the first refusal

`setMany` calls `set` on the pairs of a batch in order. A pair is refused where the router gives up
on its key or where the thread is running a callback under the key's shard (`Store.keyRefusal?`).
The pairs before the first one that is refused are applied, that one unwinds and leaves no more
behind than the router's new state, and the others are not looked at (`AppliesUpTo`).

Where the router answers from the hash and the number of shards alone, what becomes of a shard
depends on the pairs that are sent there only, in their order (`Store.shard_afterSets`), and of its
table on the last value of each key (`Table.lookup_addAll`). So a batch may be reordered as long as
the pairs of each key stay in their order.
-/

namespace ShardStore

variable {σ S V : Type} {mode : Threading} {n : Nat}

/-! ## One pair after another -/

namespace Store

variable {store : Store σ V n} {me : ThreadId} {scopes : List (Fin n × Access)} {pair : String × V}

/-- Why a call about a key is refused: the router gives up, or names a shard under whose lock the
thread is running a callback. -/
def keyRefusal? (store : Store σ V n) (me : ThreadId) (key : String) : Option Fault :=
  match (store.route key).1 with
  | .error fault => some fault
  | .ok i => if me ∈ (store.shard i).markers then some .reentrant else none

/-- A place is that of a shard which lets the thread in at once. -/
def Takes (store : Store σ V n) (me : ThreadId) (place : Except Fault (Fin n)) : Prop :=
  ∃ i, place = .ok i ∧ store.Admits me i .exclusive

/-- What a call of `set` leaves. -/
def afterSet (me : ThreadId) (store : Store σ V n) (pair : String × V) : Store σ V n :=
  ((Program.set pair.1 pair.2 : Program .single Unit V Unit).run me store ()).2.1

/-- What calls of `set` leave, one after another. -/
def afterSets (me : ThreadId) (store : Store σ V n) (pairs : List (String × V)) : Store σ V n :=
  pairs.foldl (afterSet me) store

/-- A pair that is refused changes nothing but the router's state. -/
theorem run_set_refused {fault : Fault} (h : store.keyRefusal? me pair.1 = some fault) (own : S) :
    (Program.set pair.1 pair.2 : Program mode S V Unit).run me store own =
      (.unwound fault, (store.route pair.1).2, own) := by
  rw [Program.set, Program.run_ask]
  rw [keyRefusal?] at h
  cases hplace : (store.route pair.1).1 with
  | error cause =>
    rw [hplace] at h
    cases h
    exact Process.run_route_bind_error me (Prod.ext hplace rfl) _ own
  | ok i =>
    rw [hplace] at h
    obtain ⟨hmark, hfault⟩ := Option.ite_some_none_eq_some.mp h
    rw [← hfault]
    exact Process.run_keyed_refused me (.set pair.1 pair.2) (Prod.ext hplace rfl) hmark own

/-- A pair whose shard lets the thread in is stored there. -/
theorem exists_run_set (h : store.Takes me (store.route pair.1).1) :
    ∃ i, (store.route pair.1).1 = .ok i ∧ ∀ {mode : Threading} {S : Type} (own : S),
      (Program.set pair.1 pair.2 : Program mode S V Unit).run me store own =
        (.returned (), (store.route pair.1).2.modify i (Keyed.set pair.1 pair.2).onShard, own) := by
  obtain ⟨i, hplace, hmark, hlock⟩ := h
  refine ⟨i, hplace, fun own => ?_⟩
  rw [Program.set, Program.run_ask]
  exact Process.run_keyed me (.set pair.1 pair.2) (Prod.ext hplace rfl) hmark hlock own

/-- It does not matter in whose code the call stands. -/
theorem run_set (h : store.Takes me (store.route pair.1).1) (own : S) :
    (Program.set pair.1 pair.2 : Program mode S V Unit).run me store own =
      (.returned (), store.afterSet me pair, own) := by
  obtain ⟨i, -, hrun⟩ := exists_run_set h
  rw [afterSet, hrun, hrun]

theorem Takes.keyRefusal?_eq_none (h : store.Takes me (store.route pair.1).1) :
    store.keyRefusal? me pair.1 = none := by
  obtain ⟨i, hplace, hmark, -⟩ := h
  rw [keyRefusal?, hplace]
  exact if_neg hmark

theorem Inside.afterSets (h : store.Inside me scopes) (pairs : List (String × V)) :
    (store.afterSets me pairs).Inside me scopes := by
  induction pairs generalizing store with
  | nil => exact h
  | cons pair rest ih =>
    exact ih ((Program.set pair.1 pair.2).keeps_process.run_inside h ()).2.1

end Store

/-! ## A batch -/

section batch

variable {store : Store σ V n} {me : ThreadId} {scopes : List (Fin n × Access)} {pair : String × V}
  {pairs front back : List (String × V)} {own : S} {ran : Outcome Unit × Store σ V n × S}

/-- A batch ends with the call for a pair: the call is refused and leaves nothing but the router's
state changed, or it waits for somebody else who holds the lock of the shard. -/
structure StopsAt (mode : Threading) (me : ThreadId) (store : Store σ V n) (own : S)
    (pair : String × V) (ran : Outcome Unit × Store σ V n × S) : Prop where
  ends : ran = (Program.set pair.1 pair.2 : Program mode S V Unit).run me store own
  cause : (∃ fault, store.keyRefusal? me pair.1 = some fault ∧
      ran = (.unwound fault, (store.route pair.1).2, own) ∧
      ∀ i, (store.route pair.1).2.shard i = store.shard i) ∨
    ∃ i, (store.route pair.1).1 = .ok i ∧ me ∉ (store.shard i).markers ∧
      (store.shard i).lock.grants .exclusive = false ∧ ran.1 = .blocked

theorem StopsAt.ne_returned (h : StopsAt mode me store own pair ran) : ran.1 ≠ .returned () := by
  rcases h.cause with ⟨fault, -, hran, -⟩ | ⟨i, -, -, -, hran⟩
  · rw [hran]
    exact nofun
  · rw [hran]
    exact nofun

/-- The call for a pair returns or ends the batch. -/
theorem Store.takes_or_stopsAt (mode : Threading) (me : ThreadId) (store : Store σ V n)
    (pair : String × V) (own : S) :
    store.Takes me (store.route pair.1).1 ∨ StopsAt mode me store own pair
      ((Program.set pair.1 pair.2 : Program mode S V Unit).run me store own) := by
  cases hrefusal : store.keyRefusal? me pair.1 with
  | some fault =>
    exact .inr ⟨rfl, .inl ⟨fault, hrefusal, run_set_refused hrefusal own, fun _ => rfl⟩⟩
  | none =>
    cases hplace : (store.route pair.1).1 with
    | error fault =>
      rw [keyRefusal?, hplace] at hrefusal
      cases hrefusal
    | ok i =>
      have hmark : me ∉ (store.shard i).markers := fun hmark => by
        rw [keyRefusal?, hplace] at hrefusal
        cases (if_pos hmark).symm.trans hrefusal
      cases hlock : (store.shard i).lock.grants .exclusive with
      | true => exact .inl ⟨i, rfl, hmark, hlock⟩
      | false =>
        refine .inr ⟨rfl, .inr ⟨i, hplace, hmark, hlock, ?_⟩⟩
        rw [Program.set, Program.run_ask]
        exact congrArg Prod.fst
          (Process.run_keyed_blocked me (.set pair.1 pair.2) (Prod.ext hplace rfl) hmark hlock own)

theorem Program.setMany_cons (pair : String × V) (rest : List (String × V)) :
    (setMany (pair :: rest) : Program mode S V Unit) =
      (set pair.1 pair.2).bind fun _ => setMany rest :=
  rfl

/-- A batch with a first pair that is stored goes on. -/
theorem Program.run_setMany_cons (h : store.Takes me (store.route pair.1).1)
    (rest : List (String × V)) (own : S) :
    (setMany (pair :: rest) : Program mode S V Unit).run me store own =
      (setMany rest : Program mode S V Unit).run me (store.afterSet me pair) own := by
  rw [setMany_cons, run_bind, Store.run_set h]

/-- Any other first pair ends it. -/
theorem StopsAt.setMany (h : StopsAt mode me store own pair ran) (rest : List (String × V)) :
    StopsAt mode me store own pair
      ((Program.setMany (pair :: rest) : Program mode S V Unit).run me store own) := by
  have hsame : (Program.setMany (pair :: rest) : Program mode S V Unit).run me store own = ran := by
    rw [Program.setMany_cons, Program.run_bind, ← h.ends]
    rcases hran : ran with ⟨outcome, left, own'⟩
    cases outcome with
    | returned => exact absurd (congrArg Prod.fst hran) h.ne_returned
    | unwound fault => rfl
    | blocked => rfl
  rwa [hsame]

/-- Of a batch, the pairs of `front` are applied and those of `back` are not. -/
structure AppliesUpTo (mode : Threading) (me : ThreadId) (store : Store σ V n) (own : S)
    (front back : List (String × V)) : Prop where
  /-- None of the first is refused where it is its turn. -/
  admitted : ∀ before pair after, front = before ++ pair :: after →
    (store.afterSets me before).keyRefusal? me pair.1 = none
  /-- They alone would be applied, and nothing else done. -/
  applied : (Program.setMany front : Program mode S V Unit).run me store own =
    (.returned (), store.afterSets me front, own)
  /-- If there are others, the whole batch ends with the first of them, called after these. -/
  stops : ∀ pair rest, back = pair :: rest → StopsAt mode me (store.afterSets me front) own pair
    ((Program.setMany (front ++ back) : Program mode S V Unit).run me store own)

/-- Nothing is applied. -/
theorem AppliesUpTo.nil (h : ∀ pair rest, back = pair :: rest →
      StopsAt mode me store own pair
        ((Program.setMany back : Program mode S V Unit).run me store own)) :
    AppliesUpTo mode me store own [] back where
  admitted _ _ _ heq := absurd heq.symm (List.append_ne_nil_of_right_ne_nil _ nofun)
  applied := rfl
  stops := h

/-- The first pair is stored. -/
theorem AppliesUpTo.cons (h : store.Takes me (store.route pair.1).1)
    (hrest : AppliesUpTo mode me (store.afterSet me pair) own front back) :
    AppliesUpTo mode me store own (pair :: front) back where
  admitted before other after heq := by
    cases before with
    | nil =>
      cases heq
      exact h.keyRefusal?_eq_none
    | cons first before =>
      cases heq
      exact hrest.admitted before other after rfl
  applied := (Program.run_setMany_cons h front own).trans hrest.applied
  stops other rest heq :=
    (Program.run_setMany_cons h (front ++ back) own).symm ▸ hrest.stops other rest heq

/-- **A batch is applied up to the first pair that is refused.** -/
theorem exists_appliesUpTo (mode : Threading) (me : ThreadId) (store : Store σ V n)
    (pairs : List (String × V)) (own : S) :
    ∃ front back, pairs = front ++ back ∧ AppliesUpTo mode me store own front back := by
  induction pairs generalizing store with
  | nil => exact ⟨[], [], rfl, .nil nofun⟩
  | cons pair rest ih =>
    rcases store.takes_or_stopsAt mode me pair own with htakes | hstops
    · obtain ⟨front, back, rfl, happlies⟩ := ih (store.afterSet me pair)
      exact ⟨pair :: front, back, rfl, happlies.cons htakes⟩
    · refine ⟨[], pair :: rest, rfl, .nil fun first others heq => ?_⟩
      cases heq
      exact hstops.setMany rest

/-- Inside callbacks of its own and with nobody else there, a batch does not wait. -/
theorem AppliesUpTo.ne_blocked (h : AppliesUpTo mode me store own front back)
    (hinside : store.Inside me scopes) :
    ((Program.setMany (front ++ back) : Program mode S V Unit).run me store own).1 ≠ .blocked := by
  cases back with
  | nil =>
    rw [List.append_nil, h.applied]
    exact nofun
  | cons pair rest =>
    rcases (h.stops pair rest rfl).cause with ⟨fault, -, hran, -⟩ | ⟨i, -, hmark, hlock, -⟩
    · rw [hran]
      exact nofun
    · obtain ⟨-, hgrants⟩ := (hinside.afterSets front).admits_of_notMem hmark .exclusive
      cases hlock.symm.trans hgrants

end batch

/-! ## The values of a key -/

/-- The values that a batch has for a key, in order. -/
def valuesOf (key : String) (pairs : List (String × V)) : List V :=
  (pairs.filter fun pair => pair.1 = key).map Prod.snd

/-- A batch in another order, in which the pairs of each key are in the order that they were in. -/
def Reordered (pairs pairs' : List (String × V)) : Prop :=
  pairs'.Perm pairs ∧ ∀ key, valuesOf key pairs' = valuesOf key pairs

theorem valuesOf_append (key : String) (front back : List (String × V)) :
    valuesOf key (front ++ back) = valuesOf key front ++ valuesOf key back := by
  rw [valuesOf, List.filter_append, List.map_append, ← valuesOf, ← valuesOf]

theorem valuesOf_singleton (key : String) (pair : String × V) :
    valuesOf key [pair] = if pair.1 = key then [pair.2] else [] := by
  by_cases heq : pair.1 = key <;> simp [valuesOf, heq]

theorem valuesOf_eq_nil_iff {key : String} {pairs : List (String × V)} :
    valuesOf key pairs = [] ↔ key ∉ pairs.map Prod.fst := by
  rw [valuesOf, List.map_eq_nil_iff, List.filter_eq_nil_iff]
  simp only [decide_eq_true_eq, List.mem_map, not_exists, not_and]

/-- Where the pairs of some keys are taken out, the other keys keep all their values. -/
theorem valuesOf_filter (keep : String → Bool) (key : String) (pairs : List (String × V)) :
    valuesOf key (pairs.filter fun pair => keep pair.1) =
      if keep key = true then valuesOf key pairs else [] := by
  rw [valuesOf, List.filter_filter]
  split
  · next hkeep =>
    refine congrArg (List.map Prod.snd) (List.filter_congr fun pair _ => ?_)
    by_cases heq : pair.1 = key
    · rw [heq, hkeep, Bool.and_true]
    · rw [decide_eq_false heq, Bool.false_and]
  · next hkeep =>
    rw [List.map_eq_nil_iff, List.filter_eq_nil_iff]
    intro pair _ hboth
    obtain ⟨heq, hkept⟩ := (Bool.and_eq_true ..).mp hboth
    exact hkeep (of_decide_eq_true heq ▸ hkept)

/-- Added to a table, the last value of each key stands. -/
theorem Table.lookup_addAll (table : Table V) (entries : List (String × V)) (key : String) :
    (table.addAll entries)[key]? = (valuesOf key entries).getLast?.or table[key]? := by
  induction entries using List.reverseRecOn with
  | nil => rfl
  | append_singleton front entry ih =>
    have hlast : (table.addAll front).addAll [entry] =
        (table.addAll front).insert entry.1 entry.2 := rfl
    rw [addAll_append, hlast, lookup_insert, valuesOf_append, valuesOf_singleton, ih]
    split
    · rw [List.getLast?_concat]
      rfl
    · rw [List.append_nil]

/-! ## Shard by shard -/

/-- What a shard becomes into which some pairs are inserted. -/
def Shard.afterSets (shard : Shard V) (pairs : List (String × V)) : Shard V :=
  pairs.foldl (fun shard pair => (Keyed.set pair.1 pair.2).onShard shard) shard

/-- The pairs are added to its table, and each of them is counted. -/
theorem Shard.afterSets_eq (shard : Shard V) (pairs : List (String × V)) :
    shard.afterSets pairs =
      { shard with
        table := shard.table.addAll pairs
        tally := (fun tally : Tally => (tally.bump .acquisitions).bump .writes)^[pairs.length]
          shard.tally } := by
  induction pairs generalizing shard with
  | nil => rfl
  | cons pair rest ih => exact ih ((Keyed.set pair.1 pair.2).onShard shard)

section byHash

variable {store : Store σ V n} {me : ThreadId} {pair : String × V}
  {pairs pairs' : List (String × V)} {send : String → Except Fault (Fin n)}

/-- Whether a key is sent to shard `i`. -/
def sentTo (send : String → Except Fault (Fin n)) (i : Fin n) (key : String) : Bool :=
  match send key with
  | .ok j => i = j
  | .error _ => false

theorem sentTo_iff {i : Fin n} {key : String} : sentTo send i key = true ↔ send key = .ok i := by
  rw [sentTo]
  split
  · next j hj => rw [hj, Except.ok.injEq, decide_eq_true_eq, eq_comm]
  · next hfault => rw [hfault]; exact ⟨nofun, nofun⟩

theorem Store.SendsBy.route_fst (h : store.SendsBy send) (key : String) :
    (store.route key).1 = send key := by
  obtain ⟨routing, hroute, -⟩ := h.exists_route_eq key
  rw [hroute]

/-- Storing a pair changes the shard that it is sent to. -/
theorem Store.shard_afterSet (hsends : store.SendsBy send) (htakes : store.Takes me (send pair.1)) :
    (store.afterSet me pair).SendsBy send ∧ ∀ i, (store.afterSet me pair).shard i =
      if sentTo send i pair.1 = true then (Keyed.set pair.1 pair.2).onShard (store.shard i)
      else store.shard i := by
  obtain ⟨i, hplace, hrun⟩ := exists_run_set (hsends.route_fst pair.1 ▸ htakes)
  obtain ⟨routing, hroute, hagain⟩ := hsends.exists_route_eq pair.1
  have hsent : send pair.1 = .ok i := (hsends.route_fst pair.1).symm.trans hplace
  rw [Store.afterSet, hrun, hroute]
  refine ⟨hagain.congr rfl rfl, fun j => ?_⟩
  rw [shard_modify]
  refine if_congr ?_ rfl rfl
  rw [sentTo_iff, hsent, Except.ok.injEq]

/-- No lock and no mark changes, so the same places let the thread in. -/
theorem Store.takes_afterSet (hsends : store.SendsBy send) (htakes : store.Takes me (send pair.1))
    (place : Except Fault (Fin n)) :
    (store.afterSet me pair).Takes me place ↔ store.Takes me place := by
  have hadmits (i : Fin n) :
      (store.afterSet me pair).Admits me i .exclusive ↔ store.Admits me i .exclusive := by
    rw [Admits, Admits, (shard_afterSet hsends htakes).2 i]
    split <;> rfl
  exact exists_congr fun i => and_congr_right fun _ => hadmits i

/-- **What becomes of a shard** depends on the pairs that are sent there. -/
theorem Store.shard_afterSets (hsends : store.SendsBy send)
    (htakes : ∀ pair ∈ pairs, store.Takes me (send pair.1)) (i : Fin n) :
    (store.afterSets me pairs).shard i =
      (store.shard i).afterSets (pairs.filter fun pair => sentTo send i pair.1) := by
  induction pairs generalizing store with
  | nil => rfl
  | cons pair rest ih =>
    obtain ⟨hfirst, hrest⟩ := List.forall_mem_cons.mp htakes
    obtain ⟨hagain, hshard⟩ := shard_afterSet hsends hfirst
    have hlater : ∀ pair ∈ rest, (store.afterSet me _).Takes me (send pair.1) :=
      fun other hother => (takes_afterSet hsends hfirst _).mpr (hrest other hother)
    rw [afterSets, List.foldl_cons, ← afterSets, ih hagain hlater, hshard i, List.filter_cons]
    split <;> rfl

/-- So a key has its last value in the shard that it is sent to. -/
theorem Store.lookup_afterSets (hsends : store.SendsBy send)
    (htakes : ∀ pair ∈ pairs, store.Takes me (send pair.1)) (i : Fin n) (key : String) :
    ((store.afterSets me pairs).table i)[key]? =
      (if sentTo send i key = true then valuesOf key pairs else []).getLast?.or
        (store.table i)[key]? := by
  rw [table, shard_afterSets hsends htakes, Shard.afterSets_eq, Table.lookup_addAll,
    valuesOf_filter]
  rfl

/-- A batch is stored as a whole if the shards of all its keys let the thread in, and only then. -/
theorem run_setMany_of_sendsBy (mode : Threading) (hsends : store.SendsBy send)
    (pairs : List (String × V)) (own : S) :
    let ran := (Program.setMany pairs : Program mode S V Unit).run me store own
    (ran.1 = .returned () ↔ ∀ pair ∈ pairs, store.Takes me (send pair.1)) ∧
      (ran.1 = .returned () → ran.2.1 = store.afterSets me pairs) := by
  intro ran
  induction pairs generalizing store with
  | nil => exact ⟨⟨fun _ => List.forall_mem_nil _, fun _ => rfl⟩, fun _ => rfl⟩
  | cons pair rest ih =>
    by_cases htakes : store.Takes me (send pair.1)
    · obtain ⟨hiff, hstore⟩ := ih (Store.shard_afterSet hsends htakes).1
      have hran : ran = (Program.setMany rest).run me (store.afterSet me pair) own :=
        Program.run_setMany_cons (hsends.route_fst pair.1 ▸ htakes) rest own
      have hlater : (∀ other ∈ rest, (store.afterSet me pair).Takes me (send other.1)) ↔
          ∀ other ∈ rest, store.Takes me (send other.1) :=
        forall₂_congr fun other _ => Store.takes_afterSet hsends htakes _
      rw [hran, List.forall_mem_cons]
      exact ⟨(hiff.trans hlater).trans ⟨fun hrest => ⟨htakes, hrest⟩, And.right⟩, hstore⟩
    · have hstops := (store.takes_or_stopsAt mode me pair own).resolve_left
        (hsends.route_fst pair.1 ▸ htakes)
      have hnot : ran.1 ≠ .returned () := (hstops.setMany rest).ne_returned
      refine ⟨⟨fun hreturned => absurd hreturned hnot, fun hall => ?_⟩,
        fun hreturned => absurd hreturned hnot⟩
      exact absurd (hall pair List.mem_cons_self) htakes

/-- Reordered batches do the same to a shard. -/
theorem Reordered.shard_afterSets (h : Reordered pairs pairs') (shard : Shard V)
    (keep : String → Bool) :
    shard.afterSets (pairs'.filter fun pair => keep pair.1) =
      shard.afterSets (pairs.filter fun pair => keep pair.1) := by
  have htable : shard.table.addAll (pairs'.filter fun pair => keep pair.1) =
      shard.table.addAll (pairs.filter fun pair => keep pair.1) := by
    refine Table.ext_getElem? fun key => ?_
    rw [Table.lookup_addAll, Table.lookup_addAll, valuesOf_filter, valuesOf_filter, h.2]
  rw [Shard.afterSets_eq, Shard.afterSets_eq, htable, (h.1.filter _).length_eq]

/-- What a batch leaves that was stored as a whole. -/
structure LastValues (mode : Threading) (me : ThreadId) (store : Store σ V n) (own : S)
    (pairs : List (String × V)) (last : Store σ V n) : Prop where
  /-- A key of the batch has its last value, in its shard. What others have for it stays. -/
  among : ∀ key ∈ pairs.map Prod.fst, ∃ i value, (store.route key).1 = .ok i ∧
    (valuesOf key pairs).getLast? = some value ∧ (last.table i)[key]? = some value ∧
    ∀ j, j ≠ i → (last.table j)[key]? = (store.table j)[key]?
  /-- What the shards have for other keys stays. -/
  others : ∀ key, key ∉ pairs.map Prod.fst → ∀ i, (last.table i)[key]? = (store.table i)[key]?
  /-- The batch in another order does the same to every shard, to its table and to its counters. -/
  reordered : ∀ pairs', Reordered pairs pairs' →
    let again := (Program.setMany pairs' : Program mode S V Unit).run me store own
    again.1 = .returned () ∧ ∀ i, again.2.1.shard i = last.shard i

/-- **Only the last values matter**, where the router answers by hash. -/
theorem lastValues_of_returned (hrouting : store.routing.ByHash) {own : S} (hreturned :
      ((Program.setMany pairs : Program mode S V Unit).run me store own).1 = .returned ()) :
    LastValues mode me store own pairs
      ((Program.setMany pairs : Program mode S V Unit).run me store own).2.1 := by
  have hsends := Store.sendsBy_route hrouting
  obtain ⟨hiff, hstore⟩ := run_setMany_of_sendsBy mode hsends pairs own
  have htakes := hiff.mp hreturned
  rw [hstore hreturned]
  have hlookup := Store.lookup_afterSets hsends htakes
  refine ⟨fun key hkey => ?_, fun key hkey i => ?_, fun pairs' hreordered => ?_⟩
  · obtain ⟨pair, hpair, rfl⟩ := List.mem_map.mp hkey
    obtain ⟨i, hroute, -⟩ := htakes pair hpair
    obtain ⟨value, hvalue⟩ := Option.ne_none_iff_exists'.mp fun hnone =>
      valuesOf_eq_nil_iff.mp (List.getLast?_eq_none_iff.mp hnone) hkey
    refine ⟨i, value, hroute, hvalue, ?_, fun j hj => ?_⟩
    · rw [hlookup, if_pos (sentTo_iff.mpr hroute), hvalue]
      rfl
    · have hsent : ¬sentTo (fun key => (store.route key).1) j pair.1 = true := fun hsent =>
        hj (Except.ok.inj ((sentTo_iff.mp hsent).symm.trans hroute))
      rw [hlookup, if_neg hsent]
      rfl
  · rw [hlookup, valuesOf_eq_nil_iff.mpr hkey, ite_self]
    rfl
  · intro again
    obtain ⟨hiff', hstore'⟩ := run_setMany_of_sendsBy mode hsends pairs' own
    have htakes' : ∀ pair ∈ pairs', store.Takes me (store.route pair.1).1 :=
      fun pair hpair => htakes pair (hreordered.1.mem_iff.mp hpair)
    have hreturned' := hiff'.mpr htakes'
    refine ⟨hreturned', fun i => ?_⟩
    rw [hstore' hreturned', Store.shard_afterSets hsends htakes,
      Store.shard_afterSets hsends htakes']
    exact hreordered.shard_afterSets (store.shard i) _

end byHash

/-! ## The statement -/

/-- **Batches are applied up to the first refusal, and in order for each key only.** In any state,
inside callbacks or outside, `setMany` does what calls of `set` do on its pairs in order, up to the
first pair for which the router gives up or which is sent to a shard under whose lock the thread is
running a callback. If there is one, `setMany` unwinds as that call does, which leaves nothing but
the router's state changed, and the pairs behind it are not looked at. Only for others it may wait.
If all pairs are stored and the router answers from the hash and the number of shards alone, each
key of the batch has its last value in the end, all else is as before, and the batch in any other
order that keeps the pairs of each key in order leaves the same tables and the same counters. -/
theorem Program.setMany_stops_at_refusal (mode : Threading) (me : ThreadId) (store : Store σ V n)
    (pairs : List (String × V)) (own : S) :
    let ran := (setMany pairs : Program mode S V Unit).run me store own
    (∃ front back, pairs = front ++ back ∧ AppliesUpTo mode me store own front back) ∧
      (∀ scopes, store.Inside me scopes → ran.1 ≠ .blocked) ∧
      (ran.1 = .returned () → store.routing.ByHash →
        LastValues mode me store own pairs ran.2.1) := by
  obtain ⟨front, back, rfl, happlies⟩ := exists_appliesUpTo mode me store pairs own
  refine ⟨⟨front, back, rfl, happlies⟩, fun scopes hinside => happlies.ne_blocked hinside, ?_⟩
  exact fun hreturned hrouting => lastValues_of_returned hrouting hreturned

/-- In a callback under the first shard, which refuses the last key but one of the first batch. The
second batch is stored as a whole, and may start with its second pair. -/
theorem Program.setMany_stops_at_refusal_in_a_callback :
    let config : Config Unit := { shardCount := 3 }
    let me : ThreadId := ⟨0, 0⟩
    let first : Fin config.shards := ⟨0, by decide⟩
    let refused := [("a", 1), ("b", 2), ("a", 3), ("c", 4), ("d", 5)]
    let stored := [("a", 1), ("b", 2), ("a", 3)]
    let again := [("b", 2), ("a", 1), ("a", 3)]
    ∃ store : Store Unit Nat config.shards, Store.ofConfig config = .ok store ∧
      let inside := store.modify first (Shard.opened me .exclusive)
      inside.Inside me [(first, .exclusive)] ∧ inside.routing.ByHash ∧ Reordered stored again ∧
      let ran := (setMany refused : Program .single Unit Nat Unit).run me inside ()
      ran.1 = .unwound .reentrant ∧ ran.2.1.entries = [("b", 2), ("a", 3)] ∧
      (∃ front back, refused = front ++ back ∧ AppliesUpTo .single me inside () front back) ∧
      let ran := (setMany stored : Program .single Unit Nat Unit).run me inside ()
      ran.1 = .returned () ∧ LastValues .single me inside () stored ran.2.1 := by
  intro config me first refused stored again
  obtain ⟨store, hstore⟩ : ∃ store : Store Unit Nat config.shards,
      Store.ofConfig config = .ok store := ⟨_, rfl⟩
  have hrest : store.Inside me [] := Store.inside_nil_iff.mpr (Store.atRest_of_ofConfig hstore)
  have hrouting : store.routing.ByHash := by
    rw [(Store.of_ofConfig hstore).2.1]
    exact Routing.stateless_modulo.byHash
  have hreordered : Reordered stored again := by
    refine ⟨by decide, fun key => ?_⟩
    by_cases ha : "a" = key
    · subst ha
      rfl
    · simp [stored, again, valuesOf, List.filter_cons, ha]
  have hreturned : ((setMany stored : Program .single Unit Nat Unit).run me
      (store.modify first (Shard.opened me .exclusive)) ()).1 = .returned () := by
    cases hstore
    decide +kernel
  refine ⟨store, hstore, hrest.opened List.not_mem_nil, hrouting, hreordered, ?_, ?_,
    (setMany_stops_at_refusal .single me _ refused ()).1, hreturned,
    (setMany_stops_at_refusal .single me _ stored ()).2.2 hreturned hrouting⟩
  · cases hstore
    decide +kernel
  · cases hstore
    decide +kernel

end ShardStore
