import Mathlib.Algebra.BigOperators.Group.List.Basic
import Mathlib.Algebra.Group.Pi.Basic
import ShardStore.Proofs.Courses.Own
import ShardStore.Proofs.Threads.Counts
import ShardStore.Proofs.Threads.InTurn

/-!
# Calls at once and calls in turn

Several threads make calls about keys on one store, and every action of one may come between two
actions of another. `Linear` relates what they have done at some moment to calls made in turn, on a
store of their own: a call is made there at the moment at which it is granted the lock of its shard,
or at which the router gives up on it. From then on nobody else has a say in how it ends, so the
thread itself brings what it was told and what it left into line with that, one action after another
(`Abreast`).

## What may differ meanwhile

A shard that a thread holds exclusively has, in turn, the table that this thread will have left when
it gives the lock back. A request is counted before its lock is granted, and look-ups, insertions and
removals are counted after it was given back. So a thread may be ahead with its counts of one call
and owe some of another.
-/

namespace ShardStore

/-- A thread as the calls made in turn have left it. -/
structure Caller (n : Nat) (S V : Type) : Type 1 where
  /-- The answers of its calls so far. -/
  told : List (Answer V)
  /-- The calls that it has still to make. -/
  calls : List (KeyCall S V)
  own : S
  /-- What the thread has counted of its next call. -/
  ahead : Fin n → Multiset Counter
  /-- What the thread has still to count of its last call. -/
  owed : Fin n → Multiset Counter

/-- A thread that keeps its variables. -/
theorem Caller.set_own {n : Nat} {S V : Type} {callers : List (Caller n S V)} {caller : Caller n S V}
    {t : Nat} (h : callers[t]? = some caller) :
    (callers.map own).set t caller.own = callers.map own := by
  obtain ⟨ht, hget⟩ := List.getElem?_eq_some_iff.mp h
  rw [← List.map_set, ← hget, List.set_getElem_self]

/-- What is left of a thread's course, and how it compares with the calls made in turn. -/
inductive Abreast {σ S V : Type} {n : Nat} (send : String → Except Fault (Fin n)) (me : ThreadId)
    (store serial : Store σ V n) :
    Caller n S V → S → Process .single n S V (List (Answer V)) → Prop where
  /-- It is between two calls. -/
  | between (told : List (Answer V)) (calls : List (KeyCall S V)) (own : S) :
      Abreast send me store serial ⟨told, calls, own, 0, 0⟩ own (Call.courseAfter told calls)
  /-- It has asked the router. -/
  | routed {told : List (Answer V)} {call : KeyCall S V} {calls : List (KeyCall S V)} {own : S}
      {rest : Fin n → Process .single n S V (Answer V)} {i : Fin n} (hsplits : call.Splits rest)
      (hsend : send call.key = .ok i) :
      Abreast send me store serial ⟨told, call :: calls, own, 0, 0⟩ own
        (.attempt none (.act (.check i) fun _ => .act (.bump i .acquisitions) fun _ =>
            .act (.acquire i call.access) fun _ => rest i)
          fun result => Call.courseAfter (told ++ [Answer.ofResult result]) calls)
  /-- It has found no mark of its own. -/
  | checked {told : List (Answer V)} {call : KeyCall S V} {calls : List (KeyCall S V)} {own : S}
      {rest : Fin n → Process .single n S V (Answer V)} {i : Fin n} (hsplits : call.Splits rest)
      (hsend : send call.key = .ok i) :
      Abreast send me store serial ⟨told, call :: calls, own, 0, 0⟩ own
        (.attempt none (.act (.bump i .acquisitions) fun _ =>
            .act (.acquire i call.access) fun _ => rest i)
          fun result => Call.courseAfter (told ++ [Answer.ofResult result]) calls)
  /-- It has counted its request. -/
  | asking {told : List (Answer V)} {call : KeyCall S V} {calls : List (KeyCall S V)} {own : S}
      {rest : Fin n → Process .single n S V (Answer V)} {i : Fin n} (hsplits : call.Splits rest)
      (hsend : send call.key = .ok i) :
      Abreast send me store serial
        ⟨told, call :: calls, own, Pi.single i {.acquisitions}, 0⟩ own
        (.attempt none (.act (.acquire i call.access) fun _ => rest i)
          fun result => Call.courseAfter (told ++ [Answer.ofResult result]) calls)
  /-- Its call was made in turn, and it is to come to the same end. -/
  | finishing {told : List (Answer V)} {calls : List (KeyCall S V)} {own : S}
      {p : Process .single n S V (Answer V)} {i : Fin n} {table : Table V}
      {finish : Finish S V (Answer V)} (h : p.Finishing me store serial i table own finish) :
      Abreast send me store serial
        ⟨told ++ [Answer.ofResult finish.result], calls, finish.own, 0,
          Pi.single i (finish.counts : Multiset Counter)⟩ own
        (.attempt none p fun result => Call.courseAfter (told ++ [Answer.ofResult result]) calls)

section abreast

variable {σ S V α β γ : Type} {n : Nat} {send : String → Except Fault (Fin n)} {me : ThreadId}
  {store store' serial serial' : Store σ V n} {caller : Caller n S V} {own own' : S}

/-- What others do to shards whose locks a thread does not hold makes no difference to it. -/
theorem Abreast.frame {course : Process .single n S V (List (Answer V))}
    (h : Abreast send me store serial caller own course)
    (hlocks : ∀ i, ((store'.shard i).lock.HeldBy me → (store.shard i).lock.HeldBy me) ∧
      ((store'.shard i).lock.writer = some me → (store.shard i).lock.writer = some me))
    (htables : ∀ i, (store.shard i).lock.HeldBy me →
      store'.table i = store.table i ∧ serial'.table i = serial.table i) :
    Abreast send me store' serial' caller own course := by
  cases h with
  | between => exact .between ..
  | routed hsplits hsend => exact .routed hsplits hsend
  | checked hsplits hsend => exact .checked hsplits hsend
  | asking hsplits hsend => exact .asking hsplits hsend
  | finishing hfinishing => exact .finishing (hfinishing.frame hlocks htables)

/-- A call on which the router has given up is about to tell that. -/
theorem Abreast.finishing_unwind (serial : Store σ V n) (told : List (Answer V))
    (calls : List (KeyCall S V)) (own : S) (fault : Fault)
    (hnot : ∀ i, ¬(store.shard i).lock.HeldBy me) :
    Abreast send me store serial ⟨told ++ [.fault fault], calls, own, 0, 0⟩ own
      (.attempt none (.unwind fault) fun result =>
        Call.courseAfter (told ++ [Answer.ofResult result]) calls) := by
  let i : Fin n := ⟨0, store.pos⟩
  have hfinishing : Process.Finishing (.unwind fault : Process .single n S V (Answer V)) me store
      serial i ∅ own ⟨.error fault, ∅, own, []⟩ :=
    ⟨rfl, fun j hj => (hnot j hj).elim, fun hwriter => (hnot i (.inr hwriter)).elim⟩
  have habreast : Abreast send me store serial
      ⟨told ++ [Answer.ofResult (.error fault)], calls, own, 0,
        Pi.single i (([] : List Counter) : Multiset Counter)⟩ own
      (.attempt none (.unwind fault) fun result =>
        Call.courseAfter (told ++ [Answer.ofResult result]) calls) := .finishing hfinishing
  rwa [Multiset.coe_nil, Pi.single_zero] at habreast

/-- A step of an attempt that is about to perform an action. -/
theorem Process.step?_attempt_act {scope : Option (Fin n)} {action : Action n V γ}
    {rest : γ → Process .single n S V β} {next : Except Fault β → Process .single n S V α}
    {p' : Process .single n S V α}
    (h : (attempt scope (act action rest) next).step? me store own = some (p', store', own')) :
    own = own' ∧ ((∃ c, action.perform me store = (.returned c, store') ∧
        p' = attempt scope (rest c) next) ∨
      ∃ fault, action.perform me store = (.unwound fault, store') ∧
        p' = attempt scope (unwind fault) next) := by
  obtain ⟨⟨part', store₁, own₁⟩, hstep, heq⟩ := Option.map_eq_some_iff.mp h
  cases heq
  simp only [step?] at hstep
  split at hstep
  · next c store₂ hperform => cases hstep; exact ⟨rfl, .inl ⟨c, hperform, rfl⟩⟩
  · next fault store₂ hperform => cases hstep; exact ⟨rfl, .inr ⟨fault, hperform, rfl⟩⟩
  · cases hstep

/-- What a request that is met does. -/
theorem Action.perform_acquire_eq_returned {i : Fin n} {access : Access} {done : Unit}
    (h : (Action.acquire i access).perform me store = (.returned done, store')) :
    (store.shard i).lock.grants access = true ∧
      store' = store.modify i fun shard => { shard with lock := shard.lock.take me access } := by
  rw [perform] at h
  split at h
  · next hgrants => cases h; exact ⟨hgrants, rfl⟩
  · cases h

/-- No action changes what the router says. -/
theorem Store.SendsBy.perform (h : store.SendsBy send) (action : Action n V γ) :
    (action.perform me store).2.SendsBy send := by
  by_cases haction : action.shard? = none
  · cases action with
    | route key =>
      obtain ⟨routing, hroute, hsends⟩ := h.exists_route_eq key
      rw [Action.perform, hroute]
      cases send key <;> exact hsends
    | _ => cases haction
  · exact h.congr (action.hasher_perform me store) (action.routing_perform me store haction)

/-- Nor does a step. -/
theorem Store.SendsBy.step? {p p' : Process .single n S V α} (h : store.SendsBy send)
    (hstep : p.step? me store own = some (p', store', own')) : store'.SendsBy send := by
  obtain rfl | ⟨β, action, -, rfl⟩ := Process.store_of_step? hstep
  · exact h
  · exact h.perform action

/-- A thread that is about to start a call or asks for a lock holds nothing. -/
theorem Process.Keeps.holds_of_attempt_act {action : Action n V γ}
    {rest : γ → Process .single n S V β} {next : Except Fault β → Process .single n S V α}
    {standing final : Standing n} (h : (attempt none (act action rest) next).Keeps standing final)
    (haction : action.starts = true ∨ action.asksFor?.isSome) : standing.holds = [] := by
  obtain ⟨⟨standing', hallows, -⟩, -⟩ := h
  rcases haction with hstarts | hasks
  · exact hallows.holds_of_starts hstarts
  · obtain ⟨⟨i, access⟩, hasks⟩ := Option.isSome_iff_exists.mp hasks
    obtain ⟨found, -, rfl⟩ := hallows.eq_cleared_of_asksFor? hasks
    rfl

end abreast

/-! ## One shard -/

/-- What a thread does to a shard, and at the same time a call in turn to the same shard, with what
the thread owes and is ahead with before and after. -/
structure Alongside {V : Type} (me : ThreadId) (shard shard' serial serial' : Shard V)
    (owed owed' ahead ahead' : Multiset Counter) : Prop where
  /-- Tables change only where nobody else has the lock. -/
  others : shard'.table = shard.table ∧ serial'.table = serial.table ∨
    ∀ other, shard.lock.HeldBy other → other = me
  table : shard'.lock.writer = none → serial'.table = shard'.table
  tally : ∃ now now' extra, shard'.tally = shard.tally.plus now ∧
    serial'.tally = serial.tally.plus now' ∧ now + owed' = owed + extra ∧
    now' + ahead' = ahead + extra

/-- It does nothing. -/
theorem Alongside.still {V : Type} {me : ThreadId} {shard shard' serial serial' : Shard V}
    {owed owed' ahead ahead' : Multiset Counter}
    (htable : shard.lock.writer = none → serial.table = shard.table) (hshard : shard' = shard)
    (hserial : serial' = serial) (howed : owed' = owed) (hahead : ahead' = ahead) :
    Alongside me shard shard' serial serial' owed owed' ahead ahead' := by
  subst hshard hserial howed hahead
  exact ⟨.inl ⟨rfl, rfl⟩, htable, 0, 0, 0, rfl, rfl, add_comm _ _, add_comm _ _⟩

/-- It counts a request. -/
theorem Alongside.counted {V : Type} {me : ThreadId} {shard serial : Shard V}
    (htable : shard.lock.writer = none → serial.table = shard.table) :
    Alongside me shard { shard with tally := shard.tally.bump .acquisitions } serial serial 0 0 0
      {.acquisitions} :=
  ⟨.inl ⟨rfl, rfl⟩, htable, {.acquisitions}, 0, {.acquisitions}, rfl, rfl, add_comm _ _, rfl⟩

/-- It is granted the lock, and in turn makes its call. -/
theorem Alongside.granted {S V : Type} {me : ThreadId} {shard serial : Shard V} {call : KeyCall S V}
    (hgrants : shard.lock.grants call.access = true) (htable : serial.table = shard.table) (own : S) :
    let finish := call.finish serial.table own
    Alongside me shard { shard with lock := shard.lock.take me call.access } serial
      (KeyCall.leave finish serial) 0 (finish.counts : Multiset Counter) {.acquisitions} 0 := by
  intro finish
  have htally : (KeyCall.leave finish serial).tally =
      serial.tally.plus ({.acquisitions} + (finish.counts : Multiset Counter)) := by
    rw [Tally.plus_add, Tally.plus_singleton, Tally.plus_coe]
    rfl
  refine ⟨?_, fun hfree => ?_, 0, _, finish.counts, rfl, htally, rfl, add_zero _⟩
  · cases haccess : call.access with
    | shared => exact .inl ⟨rfl, KeyCall.table_finish_of_shared haccess _ _⟩
    | exclusive =>
      -- The lock was free, so there is nobody whom the change could concern.
      rw [haccess] at hgrants
      exact .inr fun other hheld => (Lock.not_heldBy_of_grants_exclusive hgrants other hheld).elim
  · cases haccess : call.access with
    | shared => exact (KeyCall.table_finish_of_shared haccess _ _).trans htable
    | exclusive =>
      rw [haccess] at hfree
      cases hfree

/-- It comes nearer to the end of a call that has been made in turn. -/
theorem Alongside.finished {S V : Type} {me : ThreadId} {shard shard' serial : Shard V}
    {finish : Finish S V (Answer V)} {counts : List Counter}
    (htally : shard'.tally = shard.tally.bumpAll counts)
    (htable : shard'.lock.writer = none → serial.table = shard'.table)
    (hothers : shard'.table = shard.table ∨ ∀ other, shard.lock.HeldBy other → other = me) :
    Alongside me shard shard' serial serial ((finish.after counts).counts : Multiset Counter)
      (finish.counts : Multiset Counter) 0 0 := by
  refine ⟨hothers.imp_left fun hsame => ⟨hsame, rfl⟩, htable, counts, 0, 0, htally, rfl, ?_, rfl⟩
  rw [Finish.after, ← Multiset.coe_add, add_zero]

/-! ## All threads -/

/-- Threads that make some calls about keys each, one after another. A `setMany` is here one call for
each of its pairs (`KeyCall.sets`). -/
def Threads.ofCalls {σ S V : Type} {n : Nat} (store : Store σ V n)
    (works : List (S × List (KeyCall S V))) : Threads .single σ S V (List (Answer V)) n :=
  ofPrograms store (works.map fun (own, calls) => (own, Call.session (calls.map KeyCall.call)))

/-- Threads that have ended on a store at rest have been told, and have left, what `made` in turn was
told and left. -/
structure Threads.EndsAs {σ S V : Type} {n : Nat}
    (threads : Threads .single σ S V (List (Answer V)) n) (store : Store σ V n)
    (works : List (S × List (KeyCall S V))) (made : List (Made S V)) (last : Store σ V n)
    (owns : List S) : Prop where
  inTurn : InTurn store (works.map Prod.fst) made last owns
  /-- Each thread has made its calls, in its order. -/
  calls : ∀ {t : Nat} {work : S × List (KeyCall S V)}, works[t]? = some work →
    (madeBy t made).map Made.call = work.2
  /-- It has been told their answers. -/
  courses : ∀ t : Nat, threads.courses[t]? =
    owns[t]?.map fun own => (own, .done ((madeBy t made).map Made.answer))
  rest : threads.store.AtRest
  table : ∀ i, threads.store.table i = last.table i
  tally : ∀ i, (threads.store.shard i).tally = (last.shard i).tally

/-- Threads on a store compared with calls made in turn: these started on `store`, and have left
`serial` and the callers. -/
structure Linear {σ S V : Type} {n : Nat} (send : String → Except Fault (Fin n)) (store : Store σ V n)
    (works : List (S × List (KeyCall S V)))
    (threads : Threads .single σ S V (List (Answer V)) n) (made : List (Made S V))
    (serial : Store σ V n) (callers : List (Caller n S V)) : Prop where
  inTurn : InTurn store (works.map Prod.fst) made serial (callers.map Caller.own)
  atRest : serial.AtRest
  sends : threads.store.SendsBy send
  serialSends : serial.SendsBy send
  length : callers.length = threads.courses.length
  abreast : ∀ {t : Nat} {caller : Caller n S V} {own : S}
    {course : Process .single n S V (List (Answer V))}, callers[t]? = some caller →
    threads.courses[t]? = some (own, course) →
      Abreast send (.root t) threads.store serial caller own course
  /-- The calls made by a thread are the first ones of its list. -/
  calls : ∀ {t : Nat} {caller : Caller n S V}, callers[t]? = some caller →
    works[t]?.map Prod.snd = some ((madeBy t made).map Made.call ++ caller.calls) ∧
      caller.told = (madeBy t made).map Made.answer
  /-- A shard that no thread has for itself has the same table in turn. -/
  tables : ∀ i, (threads.store.shard i).lock.writer = none → serial.table i = threads.store.table i
  tallies : ∀ i, (threads.store.shard i).tally.plus (callers.map fun caller => caller.owed i).sum =
    (serial.shard i).tally.plus (callers.map fun caller => caller.ahead i).sum

namespace Linear

variable {σ S V : Type} {n : Nat} {send : String → Except Fault (Fin n)} {store : Store σ V n}
  {works : List (S × List (KeyCall S V))} {threads : Threads .single σ S V (List (Answer V)) n}
  {made made' : List (Made S V)} {serial store' serial' : Store σ V n} {callers : List (Caller n S V)}
  {standing : Nat → Standing n} {at' : Standing n} {t : Nat} {caller caller' : Caller n S V}
  {own own' : S} {course course' : Process .single n S V (List (Answer V))}

/-- What the router says. -/
theorem exists_route_eq (h : Linear send store works threads made serial callers) (key : String) :
    ∃ routed : Store σ V n, threads.store.route key = (send key, routed) ∧ routed.SendsBy send ∧
      ∀ i, routed.shard i = threads.store.shard i := by
  obtain ⟨routing, hroute, hsends⟩ := h.sends.exists_route_eq key
  exact ⟨_, hroute, hsends, fun i => rfl⟩

/-! ### A step of thread `t` -/

section step

variable (h : Linear send store works threads made serial callers)
  (horderly : threads.Orderly standing)
  (horderly' : ({ store := store', courses := threads.courses.set t (own', course') } :
    Threads .single σ S V (List (Answer V)) n).Orderly (Function.update standing t at'))

include h horderly horderly'

/-- The thread moves, and with it perhaps the calls in turn: what is to be shown is about this
thread, and about what it does to the shards. -/
theorem move (hcaller : callers[t]? = some caller)
    (hturn : InTurn store (works.map Prod.fst) made' serial'
      ((callers.map Caller.own).set t caller'.own))
    (hatRest : serial'.AtRest) (hsends : store'.SendsBy send) (hserialSends : serial'.SendsBy send)
    (hmade : made' = made ∧ caller'.calls = caller.calls ∧ caller'.told = caller.told ∨
      ∃ call answer, made' = made ++ [⟨t, call, answer⟩] ∧ caller.calls = call :: caller'.calls ∧
        caller'.told = caller.told ++ [answer])
    (habreast : Abreast send (.root t) store' serial' caller' own' course')
    (hshards : ∀ i, Alongside (.root t) (threads.store.shard i) (store'.shard i) (serial.shard i)
      (serial'.shard i) (caller.owed i) (caller'.owed i) (caller.ahead i) (caller'.ahead i)) :
    Linear send store works { store := store', courses := threads.courses.set t (own', course') }
      made' serial' (callers.set t caller') := by
  obtain ⟨ht, -⟩ := List.getElem?_eq_some_iff.mp hcaller
  refine ⟨by rw [List.map_set]; exact hturn, hatRest, hsends, hserialSends, ?_, ?_, ?_,
    fun i => (hshards i).table, ?_⟩
  · rw [List.length_set, List.length_set, h.length]
  · intro u caller₁ own₁ course₁ hcaller₁ hcourse₁
    by_cases hut : u = t
    · subst hut
      rw [List.getElem?_set_self ht] at hcaller₁
      rw [List.getElem?_set_self (h.length ▸ ht)] at hcourse₁
      cases hcaller₁
      cases hcourse₁
      exact habreast
    · rw [List.getElem?_set_ne (Ne.symm hut)] at hcaller₁ hcourse₁
      obtain ⟨hu, -⟩ := List.getElem?_eq_some_iff.mp hcourse₁
      have hlocks := horderly.lock_iff_of_eq horderly' hu (by rwa [List.length_set])
        (Function.update_of_ne hut ..)
      refine (h.abreast hcaller₁ hcourse₁).frame (fun i => ⟨(hlocks i).1.mp, (hlocks i).2.mp⟩)
        fun i hheld => ?_
      rcases (hshards i).others with hsame | hnone
      · exact hsame
      · exact absurd (ThreadId.root_inj.mp (hnone _ hheld)) hut
  · intro u caller₁ hcaller₁
    by_cases hut : u = t
    · subst hut
      rw [List.getElem?_set_self ht] at hcaller₁
      cases hcaller₁
      obtain ⟨hlist, hanswers⟩ := h.calls hcaller
      rcases hmade with ⟨rfl, hcalls, htold⟩ | ⟨call, answer, rfl, hcalls, htold⟩
      · rw [hcalls, htold]
        exact ⟨hlist, hanswers⟩
      · rw [hcalls] at hlist
        rw [madeBy_concat_self, htold, hanswers, List.map_append, List.map_append, List.append_assoc]
        exact ⟨hlist, rfl⟩
    · rw [List.getElem?_set_ne (Ne.symm hut)] at hcaller₁
      rcases hmade with ⟨rfl, -, -⟩ | ⟨call, answer, rfl, -, -⟩
      · exact h.calls hcaller₁
      · rw [madeBy_concat_of_ne (Ne.symm hut)]
        exact h.calls hcaller₁
  · intro i
    obtain ⟨now, now', extra, htally, htally', howed, hahead⟩ := (hshards i).tally
    obtain ⟨others, hsum, hset⟩ := exists_sum_set (fun caller : Caller n S V => caller.owed i) hcaller
    obtain ⟨others', hsum', hset'⟩ :=
      exists_sum_set (fun caller : Caller n S V => caller.ahead i) hcaller
    have hbefore := h.tallies i
    rw [hsum, hsum'] at hbefore
    rw [hset, hset', htally, htally']
    exact Tally.plus_exchange hbefore howed hahead

/-- A move that makes no call in turn, and changes no shard. -/
theorem moveOn (hcaller : callers[t]? = some caller) (hsends : store'.SendsBy send)
    (habreast : Abreast send (.root t) store' serial caller own' course')
    (hshards : ∀ i, store'.shard i = threads.store.shard i) :
    Linear send store works { store := store', courses := threads.courses.set t (own', course') }
      made serial (callers.set t caller) :=
  h.move horderly horderly' hcaller (by rw [Caller.set_own hcaller]; exact h.inTurn) h.atRest hsends
    h.serialSends (.inl ⟨rfl, rfl, rfl⟩) habreast
    fun i => .still (h.tables i) (hshards i) rfl rfl rfl

/-- A thread between two calls asks the router, which may give up on it. -/
theorem step_between {told : List (Answer V)} {call : KeyCall S V} {calls : List (KeyCall S V)}
    (hcaller : callers[t]? = some ⟨told, call :: calls, own, 0, 0⟩)
    (hcourse : threads.courses[t]? = some (own, Call.courseAfter told (call :: calls)))
    (hstep : (Call.courseAfter told (call :: calls)).step? (.root t) threads.store own =
      some (course', store', own')) :
    ∃ made' serial' callers', Linear send store works
      { store := store', courses := threads.courses.set t (own', course') }
      made' serial' callers' := by
  obtain ⟨rest, hsplits⟩ := call.exists_splits (n := n)
  have hkeeps := horderly.keeps hcourse
  rw [Call.courseAfter_cons, hsplits.process] at hstep hkeeps
  obtain ⟨routed, hroute, hsends, hshards⟩ := h.exists_route_eq call.key
  obtain ⟨rfl, ⟨i, hperform, rfl⟩ | ⟨fault, hperform, rfl⟩⟩ := Process.step?_attempt_act hstep
  · rw [Action.perform, hroute] at hperform
    cases hsend : send call.key with
    | error fault => rw [hsend] at hperform; cases hperform
    | ok j =>
      rw [hsend] at hperform
      cases hperform
      exact ⟨made, serial, _, h.moveOn horderly horderly' hcaller hsends (.routed hsplits hsend)
        hshards⟩
  · rw [Action.perform, hroute] at hperform
    cases hsend : send call.key with
    | ok j => rw [hsend] at hperform; cases hperform
    | error fault' =>
      rw [hsend] at hperform
      cases hperform
      -- The call is over, and has done nothing.
      obtain ⟨serial', hturn, hatRest, hserialSends, hsame⟩ := h.inTurn.snoc_of_error h.atRest
        h.serialSends (by rw [List.getElem?_map, hcaller]; rfl) call hsend
      have hnot (j : Fin n) : ¬(store'.shard j).lock.HeldBy (.root t) := by
        rw [hshards]
        exact horderly.not_heldBy hcourse (hkeeps.holds_of_attempt_act (.inl rfl)) j
      refine ⟨made ++ [⟨t, call, .fault fault⟩], serial',
        callers.set t ⟨told ++ [.fault fault], calls, own, 0, 0⟩, ?_⟩
      exact h.move horderly horderly' hcaller hturn hatRest hsends hserialSends
        (.inr ⟨call, .fault fault, rfl, rfl, rfl⟩)
        (.finishing_unwind serial' told calls own fault hnot)
        fun j => .still (h.tables j) (hshards j) (hsame j) rfl rfl

/-- A thread that has asked the router finds no mark of its own, as it is running no callback. -/
theorem step_routed {told : List (Answer V)} {call : KeyCall S V} {calls : List (KeyCall S V)}
    {rest : Fin n → Process .single n S V (Answer V)} {i : Fin n} (hsplits : call.Splits rest)
    (hsend : send call.key = .ok i) (hcaller : callers[t]? = some ⟨told, call :: calls, own, 0, 0⟩)
    (hcourse : threads.courses[t]? = some (own,
      .attempt none (.act (.check i) fun _ => .act (.bump i .acquisitions) fun _ =>
          .act (.acquire i call.access) fun _ => rest i)
        fun result => Call.courseAfter (told ++ [Answer.ofResult result]) calls))
    (hstep : (Process.attempt none (.act (.check i) fun _ => .act (.bump i .acquisitions) fun _ =>
          .act (.acquire i call.access) fun _ => rest i)
        fun result => Call.courseAfter (told ++ [Answer.ofResult result]) calls).step? (.root t)
      threads.store own = some (course', store', own')) :
    ∃ callers', Linear send store works
      { store := store', courses := threads.courses.set t (own', course') } made serial callers' := by
  obtain ⟨ht, -⟩ := List.getElem?_eq_some_iff.mp hcourse
  have hnothing := (horderly.keeps hcourse).holds_of_attempt_act (.inl rfl)
  have hmark : ThreadId.root t ∉ (threads.store.shard i).markers := by
    rw [(horderly.shows ht).mem_markers_iff, Standing.calls, Standing.scopes_eq_nil hnothing]
    exact List.not_mem_nil
  obtain ⟨rfl, ⟨_, hperform, rfl⟩ | ⟨fault, hperform, rfl⟩⟩ := Process.step?_attempt_act hstep
  · rw [Action.perform, if_neg hmark] at hperform
    cases hperform
    exact ⟨_, h.moveOn horderly horderly' hcaller h.sends (.checked hsplits hsend) fun j => rfl⟩
  · rw [Action.perform, if_neg hmark] at hperform
    cases hperform

/-- It counts its request, ahead of the call in turn. -/
theorem step_checked {told : List (Answer V)} {call : KeyCall S V} {calls : List (KeyCall S V)}
    {rest : Fin n → Process .single n S V (Answer V)} {i : Fin n} (hsplits : call.Splits rest)
    (hsend : send call.key = .ok i) (hcaller : callers[t]? = some ⟨told, call :: calls, own, 0, 0⟩)
    (hstep : (Process.attempt none (.act (.bump i .acquisitions) fun _ =>
          .act (.acquire i call.access) fun _ => rest i)
        fun result => Call.courseAfter (told ++ [Answer.ofResult result]) calls).step? (.root t)
      threads.store own = some (course', store', own')) :
    ∃ callers', Linear send store works
      { store := store', courses := threads.courses.set t (own', course') } made serial callers' := by
  obtain ⟨rfl, ⟨_, hperform, rfl⟩ | ⟨fault, hperform, rfl⟩⟩ := Process.step?_attempt_act hstep
  · cases hperform
    set counted : Store σ V n := threads.store.modify i fun shard =>
      { shard with tally := shard.tally.bump .acquisitions } with hcounted
    have hown : (callers.map Caller.own).set t own = _ := Caller.set_own hcaller
    refine ⟨callers.set t ⟨told, call :: calls, own, Pi.single i {.acquisitions}, 0⟩, ?_⟩
    refine h.move horderly horderly' hcaller (by rw [hown]; exact h.inTurn) h.atRest
      (h.sends.congr rfl rfl) h.serialSends (.inl ⟨rfl, rfl, rfl⟩) (.asking hsplits hsend) fun j => ?_
    by_cases hji : j = i
    · subst hji
      simp only [hcounted, Store.shard_modify_self, Pi.single_eq_same]
      exact .counted (h.tables j)
    · exact .still (h.tables j) (threads.store.shard_modify_ne (Ne.symm hji) _) rfl rfl
        (Pi.single_eq_of_ne hji _)
  · cases hperform

/-- **It is granted the lock of its shard, and at this moment its call is made in turn.** -/
theorem step_asking {told : List (Answer V)} {call : KeyCall S V} {calls : List (KeyCall S V)}
    {rest : Fin n → Process .single n S V (Answer V)} {i : Fin n} (hsplits : call.Splits rest)
    (hsend : send call.key = .ok i)
    (hcaller : callers[t]? = some ⟨told, call :: calls, own, Pi.single i {.acquisitions}, 0⟩)
    (hcourse : threads.courses[t]? = some (own,
      .attempt none (.act (.acquire i call.access) fun _ => rest i)
        fun result => Call.courseAfter (told ++ [Answer.ofResult result]) calls))
    (hstep : (Process.attempt none (.act (.acquire i call.access) fun _ => rest i)
        fun result => Call.courseAfter (told ++ [Answer.ofResult result]) calls).step? (.root t)
      threads.store own = some (course', store', own')) :
    ∃ made' serial' callers', Linear send store works
      { store := store', courses := threads.courses.set t (own', course') }
      made' serial' callers' := by
  have hnot := horderly.not_heldBy hcourse ((horderly.keeps hcourse).holds_of_attempt_act (.inr rfl))
  obtain ⟨rfl, ⟨_, hperform, rfl⟩ | ⟨fault, hperform, rfl⟩⟩ := Process.step?_attempt_act hstep
  · obtain ⟨hgrants, hgranted⟩ := Action.perform_acquire_eq_returned hperform
    have htable : serial.table i = threads.store.table i :=
      h.tables i (Lock.writer_eq_none_of_grants hgrants)
    obtain ⟨serial', hturn, hatRest, hserialSends, hleft, hsame⟩ := h.inTurn.snoc h.atRest
      h.serialSends (by rw [List.getElem?_map, hcaller]; rfl) call hsend
    set finish := call.finish (serial.table i) own with hfinish
    have haway (j : Fin n) (hj : j ≠ i) : store'.shard j = threads.store.shard j := by
      rw [hgranted, Store.shard_modify_ne _ (Ne.symm hj)]
    have hfinishing : (rest i).Finishing (.root t) store' serial' i (serial.table i) own finish := by
      refine ⟨hsplits.finish i (serial.table i) own, fun j hj => ?_, fun _ => ?_⟩
      · by_cases hji : j = i
        · rw [hgranted, Store.table_modify_self]
          exact ⟨hji, htable.symm⟩
        · rw [haway j hji] at hj
          exact (hnot j hj).elim
      · exact congrArg Shard.table hleft
    refine ⟨made ++ [⟨t, call, Answer.ofResult finish.result⟩], serial',
      callers.set t ⟨told ++ [Answer.ofResult finish.result], calls, finish.own, 0,
        Pi.single i (finish.counts : Multiset Counter)⟩, ?_⟩
    refine h.move horderly horderly' hcaller hturn hatRest
      (h.sends.congr (by rw [hgranted]; rfl) (by rw [hgranted]; rfl)) hserialSends
      (.inr ⟨call, _, rfl, rfl, rfl⟩) (.finishing hfinishing) fun j => ?_
    by_cases hji : j = i
    · subst hji
      simp only [hgranted, hleft, Store.shard_modify_self, Pi.single_eq_same]
      exact .granted hgrants htable own
    · refine .still (h.tables j) (haway j hji) (hsame j hji) (Pi.single_eq_of_ne hji _) ?_
      simp only [Pi.single_eq_of_ne hji, Pi.zero_apply]
  · rw [Action.perform] at hperform
    split at hperform <;> cases hperform

/-- It comes nearer to the end of its call, or goes on to the next one. -/
theorem step_finishing {told : List (Answer V)} {calls : List (KeyCall S V)}
    {p : Process .single n S V (Answer V)} {i : Fin n} {table : Table V} {finish : Finish S V (Answer V)}
    (hfinishing : p.Finishing (.root t) threads.store serial i table own finish)
    (hcaller : callers[t]? = some ⟨told ++ [Answer.ofResult finish.result], calls, finish.own, 0,
      Pi.single i (finish.counts : Multiset Counter)⟩)
    (hcourse : threads.courses[t]? = some (own,
      .attempt none p fun result => Call.courseAfter (told ++ [Answer.ofResult result]) calls))
    (hstep : (Process.attempt none p fun result =>
        Call.courseAfter (told ++ [Answer.ofResult result]) calls).step? (.root t) threads.store own =
      some (course', store', own')) :
    ∃ callers', Linear send store works
      { store := store', courses := threads.courses.set t (own', course') } made serial callers' := by
  obtain ⟨ht, -⟩ := List.getElem?_eq_some_iff.mp hcourse
  simp only [Process.step?] at hstep
  split at hstep
  · next result hended =>
    cases hstep
    have hends := hfinishing.ends
    rw [Process.finish?_of_ended? hended] at hends
    cases hends
    rw [Multiset.coe_nil, Pi.single_zero] at hcaller
    exact ⟨_, h.moveOn horderly horderly' hcaller h.sends (.between ..) fun j => rfl⟩
  · obtain ⟨⟨p', store₁, own₁⟩, hstep', heq⟩ := Option.map_eq_some_iff.mp hstep
    obtain ⟨rfl, rfl, rfl⟩ : _ = course' ∧ store₁ = store' ∧ own₁ = own' := by
      simpa only [Prod.mk.injEq] using heq
    have hkeeps' := horderly'.keeps (List.getElem?_set_self ht)
    have hshows' : store₁.Shows (.root t) _ := horderly'.shows (t := t) (by rwa [List.length_set])
    obtain ⟨counts, table', finish', rfl, hfinishing', htable', htally, haway, hput⟩ :=
      hfinishing.step? (h.tables i) (horderly.consistent i) (horderly.keeps hcourse).1
        (horderly.shows ht) hkeeps'.1 hshows' hstep'
    have hown : (callers.map Caller.own).set t finish'.own = _ := Caller.set_own hcaller
    refine ⟨callers.set t ⟨told ++ [Answer.ofResult finish'.result], calls, finish'.own, 0,
      Pi.single i (finish'.counts : Multiset Counter)⟩, ?_⟩
    refine h.move horderly horderly' hcaller (by rw [hown]; exact h.inTurn) h.atRest
      (h.sends.step? hstep') h.serialSends (.inl ⟨rfl, rfl, rfl⟩) (.finishing hfinishing') fun j => ?_
    by_cases hji : j = i
    · subst hji
      simp only [Pi.single_eq_same]
      refine .finished htally htable' (hput.imp_right fun hwriter other hheld => ?_)
      exact horderly.eq_of_heldBy hwriter hheld
    · refine .still (h.tables j) (haway j hji) rfl ?_ rfl
      simp only [Pi.single_eq_of_ne hji]

end step

/-- **Whatever step a thread takes, the calls in turn keep up with it.** -/
theorem step {threads' : Threads .single σ S V (List (Answer V)) n}
    (h : Linear send store works threads made serial callers) (horderly : threads.Orderly standing)
    (hstep : threads.step? t = some threads')
    (horderly' : threads'.Orderly (Function.update standing t at')) :
    ∃ made' serial' callers', Linear send store works threads' made' serial' callers' := by
  obtain ⟨own, course, own', course', store', hcourse, hmoved, rfl⟩ := Threads.exists_of_step? hstep
  obtain ⟨ht, -⟩ := List.getElem?_eq_some_iff.mp hcourse
  obtain ⟨caller, hcaller⟩ : ∃ caller, callers[t]? = some caller :=
    ⟨_, List.getElem?_eq_getElem (h.length ▸ ht)⟩
  cases h.abreast hcaller hcourse with
  | between told calls =>
    cases calls with
    | nil => cases hmoved
    | cons call calls => exact h.step_between horderly horderly' hcaller hcourse hmoved
  | routed hsplits hsend =>
    exact ⟨_, _, h.step_routed horderly horderly' hsplits hsend hcaller hcourse hmoved⟩
  | checked hsplits hsend =>
    exact ⟨_, _, h.step_checked horderly horderly' hsplits hsend hcaller hmoved⟩
  | asking hsplits hsend => exact h.step_asking horderly horderly' hsplits hsend hcaller hcourse hmoved
  | finishing hfinishing =>
    exact ⟨_, _, h.step_finishing horderly horderly' hfinishing hcaller hcourse hmoved⟩

/-! ### From the start -/

/-- Threads that have made no call yet. -/
theorem start (hrest : store.AtRest) (hsends : store.SendsBy send)
    (works : List (S × List (KeyCall S V))) :
    Linear send store works (Threads.ofCalls store works) [] store
      (works.map fun work => ⟨[], work.2, work.1, 0, 0⟩) where
  inTurn := by
    rw [List.map_map]
    exact .start
  atRest := hrest
  sends := hsends
  serialSends := hsends
  length := by simp only [Threads.ofCalls, Threads.ofPrograms, List.length_map]
  abreast {t caller own course} hcaller hcourse := by
    simp only [Threads.ofCalls, Threads.ofPrograms, List.map_map, List.getElem?_map,
      Option.map_eq_some_iff] at hcaller hcourse
    obtain ⟨work, hwork, rfl⟩ := hcaller
    obtain ⟨work', hwork', heq⟩ := hcourse
    obtain rfl : work = work' := Option.some.inj (hwork.symm.trans hwork')
    cases heq
    rw [Call.process_session]
    exact .between ..
  calls {t caller} hcaller := by
    simp only [List.getElem?_map, Option.map_eq_some_iff] at hcaller
    obtain ⟨work, hwork, rfl⟩ := hcaller
    rw [hwork]
    exact ⟨rfl, rfl⟩
  tables i _ := rfl
  tallies i := by
    simp only [List.map_map, Function.comp_def, Pi.zero_apply]
    rfl

/-- **Every interleaving has calls in turn beside it.** -/
theorem exists_of_reaches (hrest : store.AtRest) (hsends : store.SendsBy send)
    (h : (Threads.ofCalls store works).Reaches threads) :
    ∃ standing made serial callers, threads.Orderly standing ∧
      Linear send store works threads made serial callers := by
  induction h with
  | refl => exact ⟨_, _, _, _, Threads.orderly_ofPrograms hrest _, start hrest hsends works⟩
  | step t _ hstep ih =>
    obtain ⟨standing, made, serial, callers, horderly, hlinear⟩ := ih
    obtain ⟨at', horderly'⟩ := horderly.step hstep
    obtain ⟨made', serial', callers', hlinear'⟩ := hlinear.step horderly hstep horderly'
    exact ⟨_, made', serial', callers', horderly', hlinear'⟩

/-! ### Progress and the end -/

/-- A thread that asks for a lock holds none. -/
theorem holds_of_acquire (h : Linear send store works threads made serial callers)
    (horderly : threads.Orderly standing) (hcourse : threads.courses[t]? = some (own, course))
    {i : Fin n} {access : Access} (hupcoming : course.upcoming? = some ⟨Unit, .acquire i access⟩) :
    (standing t).holds = [] := by
  obtain ⟨ht, -⟩ := List.getElem?_eq_some_iff.mp hcourse
  obtain ⟨caller, hcaller⟩ : ∃ caller, callers[t]? = some caller :=
    ⟨_, List.getElem?_eq_getElem (h.length ▸ ht)⟩
  have hkeeps := horderly.keeps hcourse
  cases h.abreast hcaller hcourse with
  | between told calls =>
    cases calls with
    | nil => cases hupcoming
    | cons call calls =>
      obtain ⟨rest, hsplits⟩ := call.exists_splits (n := n)
      rw [Call.courseAfter_cons, hsplits.process] at hupcoming
      have hasks := congrArg (Option.map fun upcoming => upcoming.2.asksFor?) hupcoming
      cases hasks
  | routed => cases hupcoming
  | checked => cases hupcoming
  | asking => exact hkeeps.holds_of_attempt_act (.inr rfl)
  | finishing hfinishing =>
    obtain ⟨table, hsome⟩ := Process.isSome_onTable?_of_finish? hfinishing.ends hupcoming
    cases hsome

/-- **Until all threads have ended, one can make a step**: a thread that waits does so for one that
holds a lock, and this one waits for nobody. -/
theorem exists_step (h : Linear send store works threads made serial callers)
    (horderly : threads.Orderly standing) (hnot : ¬threads.Ended) :
    ∃ t, (threads.step? t).isSome := by
  by_contra hstuck
  have hnone (t : Nat) {own : S} {course : Process .single n S V (List (Answer V))}
      (hcourse : threads.courses[t]? = some (own, course)) :
      course.step? (.root t) threads.store own = none := by
    by_contra hsome
    obtain ⟨next, hnext⟩ := Option.ne_none_iff_exists'.mp hsome
    refine hstuck ⟨t, ?_⟩
    have hnext' : course.step? { origin := t } threads.store own = some next := hnext
    simp only [Threads.step?, hcourse, hnext', Option.map_some, Option.isSome_some]
  -- One thread waits for a lock.
  obtain ⟨⟨own, course⟩, hmem, hended⟩ : ∃ course ∈ threads.courses, ¬course.2.ended?.isSome := by
    simpa only [Threads.Ended, not_forall, exists_prop] using hnot
  obtain ⟨t, hcourse⟩ := List.getElem?_of_mem hmem
  obtain ⟨i, access, -, hgrants⟩ :=
    Process.exists_acquire_of_step?_eq_none (Option.not_isSome_iff_eq_none.mp hended)
      (hnone t hcourse)
  -- Another thread has the lock, and is not waiting.
  obtain ⟨thread, hheld⟩ := Lock.exists_heldBy_of_grants_eq_false hgrants
  obtain ⟨u, hu, rfl⟩ := horderly.listed (.inl hheld)
  obtain ⟨⟨own', course'⟩, hcourse'⟩ : ∃ course, threads.courses[u]? = some course :=
    ⟨_, List.getElem?_eq_getElem hu⟩
  have hholds : (standing u).holds ≠ [] := by
    intro hnothing
    rw [(horderly.shows hu).heldBy_iff, hnothing] at hheld
    exact List.not_mem_nil hheld
  cases hended' : course'.ended? with
  | some result => exact hholds ((horderly.keeps hcourse').holds_of_ended? hended')
  | none =>
    obtain ⟨j, access', hupcoming, -⟩ :=
      Process.exists_acquire_of_step?_eq_none hended' (hnone u hcourse')
    exact hholds (h.holds_of_acquire horderly hcourse' hupcoming)

/-- **Where all threads have ended, they have been told and have left what the calls in turn were
told and left.** -/
theorem endsAs_of_ended (h : Linear send store works threads made serial callers)
    (horderly : threads.Orderly standing) (hended : threads.Ended) :
    threads.EndsAs store works made serial (callers.map Caller.own) := by
  have hrest := horderly.atRest_of_ended hended
  have hfree (i : Fin n) : (threads.store.shard i).lock.writer = none := by
    rw [(hrest i).1]
    rfl
  have hover {t : Nat} {caller : Caller n S V} {own : S}
      {course : Process .single n S V (List (Answer V))} (hcaller : callers[t]? = some caller)
      (hcourse : threads.courses[t]? = some (own, course)) :
      caller = ⟨caller.told, [], own, 0, 0⟩ ∧ course = .done caller.told := by
    have hresult := hended _ (List.mem_of_getElem? hcourse)
    cases h.abreast hcaller hcourse with
    | between told calls =>
      cases calls with
      | nil => exact ⟨rfl, by rw [Call.courseAfter_nil, List.append_nil]⟩
      | cons call calls =>
        rw [Call.courseAfter_cons] at hresult
        cases hresult
    | _ => cases hresult
  have hcourse {t : Nat} {caller : Caller n S V} (hcaller : callers[t]? = some caller) :
      threads.courses[t]? = some (caller.own, .done caller.told) ∧ caller.calls = [] ∧
        caller.ahead = 0 ∧ caller.owed = 0 := by
    obtain ⟨ht, -⟩ := List.getElem?_eq_some_iff.mp hcaller
    obtain ⟨⟨own, course⟩, hcourse⟩ : ∃ course, threads.courses[t]? = some course :=
      ⟨_, List.getElem?_eq_getElem (h.length ▸ ht)⟩
    obtain ⟨heq, rfl⟩ := hover hcaller hcourse
    rw [heq]
    exact ⟨hcourse, rfl, rfl, rfl⟩
  refine ⟨h.inTurn, fun {t work} hwork => ?_, fun t => ?_, hrest, fun i => (h.tables i (hfree i)).symm,
    fun i => ?_⟩
  · have hlength : works.length = callers.length := by
      simpa only [List.length_map] using h.inTurn.length_owns.symm
    obtain ⟨ht, -⟩ := List.getElem?_eq_some_iff.mp hwork
    obtain ⟨caller, hcaller⟩ : ∃ caller, callers[t]? = some caller :=
      ⟨_, List.getElem?_eq_getElem (hlength ▸ ht)⟩
    have hcalls := (h.calls hcaller).1
    rw [hwork, (hcourse hcaller).2.1, List.append_nil] at hcalls
    exact (Option.some.inj hcalls).symm
  · rw [List.getElem?_map, Option.map_map]
    cases hcaller : callers[t]? with
    | none =>
      rw [List.getElem?_eq_none_iff, h.length, ← List.getElem?_eq_none_iff] at hcaller
      exact hcaller
    | some caller =>
      rw [(hcourse hcaller).1, (h.calls hcaller).2]
      rfl
  · have hahead : (callers.map fun caller => caller.ahead i).sum = 0 := by
      refine List.sum_eq_zero fun events hmem => ?_
      obtain ⟨caller, hmem', rfl⟩ := List.mem_map.mp hmem
      obtain ⟨t, hcaller⟩ := List.getElem?_of_mem hmem'
      rw [(hcourse hcaller).2.2.1, Pi.zero_apply]
    have howed : (callers.map fun caller => caller.owed i).sum = 0 := by
      refine List.sum_eq_zero fun events hmem => ?_
      obtain ⟨caller, hmem', rfl⟩ := List.mem_map.mp hmem
      obtain ⟨t, hcaller⟩ := List.getElem?_of_mem hmem'
      rw [(hcourse hcaller).2.2.2, Pi.zero_apply]
    have htally := h.tallies i
    rwa [hahead, howed, Tally.plus_zero, Tally.plus_zero] at htally

end Linear

end ShardStore
