import Mathlib.Data.Fintype.Pigeonhole
import Mathlib.Data.Set.Finite.Lattice
import Mathlib.Dynamics.PeriodicPts.Defs
import ShardStore.Proofs.Linearizability

/-!
# Callbacks that wait for each other

Before a thread asks for a lock it looks for its own marks on that one shard. So it never waits for
a lock that it holds itself, but what callbacks of other threads are waiting for it cannot see: two
threads that each call the other's shard from inside a callback are not refused, and wait for good
(`crossed_callbacks_deadlock`). That is the only way in which threads come to wait for each other:
of any threads that do, some stand in a ring of two or more, each waiting for a shard under whose
lock the next one is running a callback (`requests_refused_or_in_ring`).
-/

namespace ShardStore

/-- On finitely many elements, a function that moves every one of them leads round a ring of at
least two. -/
theorem exists_ring {T : Type} [Finite T] [Nonempty T] (next : T → T) (h : ∀ t, next t ≠ t) :
    ∃ (m : Nat) (ring : Fin (m + 2) → T), Function.Injective ring ∧
      ∀ k, next (ring k) = ring (k + 1) := by
  obtain ⟨start⟩ := ‹Nonempty T›
  -- Somewhere on the way from the start an element comes again.
  obtain ⟨t, ht⟩ : ∃ t, t ∈ Function.periodicPts next := by
    obtain ⟨a, b, hab, heq⟩ := Finite.exists_ne_map_eq_of_infinite fun k : Nat => next^[k] start
    wlog hlt : a < b generalizing a b
    · exact this b a hab.symm heq.symm (by omega)
    refine ⟨next^[a] start, Function.mk_mem_periodicPts (n := b - a) (by omega) ?_⟩
    rw [Function.IsPeriodicPt, Function.IsFixedPt, ← Function.iterate_add_apply,
      Nat.sub_add_cancel hlt.le]
    exact heq.symm
  have hpos := Function.minimalPeriod_pos_of_mem_periodicPts ht
  have hne : Function.minimalPeriod next t ≠ 1 := fun hone =>
    h t (Function.minimalPeriod_eq_one_iff_isFixedPt.mp hone)
  obtain ⟨m, hm⟩ : ∃ m, Function.minimalPeriod next t = m + 2 := ⟨_, (Nat.sub_add_cancel
    (show 2 ≤ Function.minimalPeriod next t by omega)).symm⟩
  refine ⟨m, fun k => next^[k.val] t, fun k l hkl => ?_, fun k => ?_⟩
  · exact Fin.ext (Function.iterate_injOn_Iio_minimalPeriod (hm.symm ▸ k.isLt : k.val < _)
      (hm.symm ▸ l.isLt : l.val < _) hkl)
  · simp only [← Function.iterate_succ_apply' next, Fin.val_add, Fin.val_one, ← hm,
      Function.iterate_mod_minimalPeriod_eq]

namespace Process

variable {S V α : Type} {mode : Threading} {n : Nat} {p : Process mode n S V α} {i : Fin n}
  {standing final : Standing n}

/-- The lock that a thread asks for next, if it asks for one. -/
def asksFor? (p : Process mode n S V α) : Option (Fin n × Access) :=
  p.upcoming?.bind fun next => next.2.asksFor?

/-- A thread that asks for a lock holds those of its open scopes only. -/
theorem Keeps.standing_eq_of_asksFor? (h : p.Keeps standing final) {access : Access}
    (hasks : p.asksFor? = some (i, access)) :
    ∃ found scopes, i ∈ found ∧ standing = ⟨.cleared found, scopes⟩ := by
  obtain ⟨⟨β, action⟩, hupcoming, hasks⟩ := Option.bind_eq_some_iff.mp hasks
  obtain ⟨inner, inner', outer, rfl, hallows⟩ := h.exists_allows hupcoming
  obtain ⟨found, hi, rfl⟩ := hallows.eq_cleared_of_asksFor? hasks
  exact ⟨found, _, hi, rfl⟩

/-- So does a thread that starts a call. -/
theorem Keeps.holds_eq_scopes_of_starts (h : p.Keeps standing final) {β : Type}
    {action : Action n V β} (hupcoming : p.upcoming? = some ⟨β, action⟩)
    (hstarts : action.starts = true) : standing.holds = standing.scopes := by
  obtain ⟨inner, inner', outer, rfl, hallows⟩ := h.exists_allows hupcoming
  obtain ⟨hstage, -⟩ := List.append_eq_nil_iff.mp (hallows.holds_of_starts hstarts)
  exact congrArg (· ++ (inner.under outer).scopes) hstage

end Process

namespace Threads

variable {σ S V α : Type} {mode : Threading} {n : Nat}

/-- A thread is running a callback under the lock of a shard. -/
def CallsBack (threads : Threads mode σ S V α n) (t : Nat) (i : Fin n) : Prop :=
  ∃ course ∈ threads.courses[t]?, i ∈ course.2.running

instance (threads : Threads mode σ S V α n) (t : Nat) (i : Fin n) :
    Decidable (threads.CallsBack t i) :=
  inferInstanceAs (Decidable (∃ course ∈ threads.courses[t]?, _))

/-- A thread waits for the lock of a shard: it asks for it in a way that is not granted. -/
def Waits (threads : Threads mode σ S V α n) (t : Nat) (i : Fin n) : Prop :=
  ∃ course ∈ threads.courses[t]?, ∃ request ∈ course.2.asksFor?, request.1 = i ∧
    (threads.store.shard i).lock.grants request.2 = false

instance (threads : Threads mode σ S V α n) (t : Nat) (i : Fin n) :
    Decidable (threads.Waits t i) :=
  inferInstanceAs (Decidable (∃ course ∈ threads.courses[t]?, _))

/-- Threads that wait for nobody but each other. -/
def Entangled (threads : Threads mode σ S V α n) (stuck : Set Nat) : Prop :=
  stuck.Nonempty ∧ ∀ t ∈ stuck, ∃ i, threads.Waits t i ∧
    ∃ u ∈ stuck, (threads.store.shard i).lock.HeldBy (.root u)

/-- The threads that have not ended. -/
def unfinished (threads : Threads mode σ S V α n) : Set Nat :=
  { t | ∃ course ∈ threads.courses[t]?, course.2.ended? = none }

/-- What the check for marks refuses, and what it cannot. -/
structure ChecksOwnMarks (threads : Threads .single σ S V α n) : Prop where
  /-- A request is refused just if its thread is running a callback under that shard's lock, which
  is just if the thread holds the lock. -/
  refuses : ∀ {t : Nat} {own : S} {course : Process .single n S V α} {i : Fin n},
    threads.courses[t]? = some (own, course) → course.upcoming? = some ⟨Unit, .check i⟩ →
    (Action.check i).perform (.root t) threads.store =
        (if threads.CallsBack t i then .unwound .reentrant else .returned (), threads.store) ∧
      (threads.CallsBack t i ↔ (threads.store.shard i).lock.HeldBy (.root t))
  /-- No thread waits for itself. -/
  waits : ∀ {t : Nat} {i : Fin n}, threads.Waits t i →
    ¬(threads.store.shard i).lock.HeldBy (.root t) ∧
      ∃ u ≠ t, (threads.store.shard i).lock.HeldBy (.root u)
  /-- Where no thread can go on, those that have not ended wait for each other. -/
  deadlocked : threads.Deadlocked → threads.Entangled threads.unfinished
  /-- Threads that wait for each other are or contain a ring of at least two threads, all of them
  in callbacks. -/
  ring : ∀ {stuck : Set Nat}, threads.Entangled stuck →
    ∃ (m : Nat) (ring : Fin (m + 2) → Nat), Function.Injective ring ∧ ∀ k, ring k ∈ stuck ∧
      ∃ i, threads.Waits (ring k) i ∧ threads.CallsBack (ring (k + 1)) i
  /-- So while at most one thread is in a callback, some thread can go on. -/
  goesOn : (∀ t u i j, threads.CallsBack t i → threads.CallsBack u j → t = u) →
    ¬threads.Deadlocked

namespace Orderly

variable {threads : Threads .single σ S V α n} {standing : Nat → Standing n} {t u : Nat} {i : Fin n}

/-- The callbacks of a thread are those of its standing. -/
theorem callsBack_iff (h : threads.Orderly standing) {own : S} {course : Process .single n S V α}
    (hcourse : threads.courses[t]? = some (own, course)) (i : Fin n) :
    threads.CallsBack t i ↔ i ∈ (standing t).calls := by
  rw [← (h.keeps hcourse).running_eq rfl, CallsBack, hcourse]
  constructor
  · rintro ⟨_, hmem, hrunning⟩
    rwa [← Option.some.inj hmem] at hrunning
  · exact fun hrunning => ⟨_, rfl, hrunning⟩

/-- A thread that waits has looked for its marks on the shard, and holds locks for callbacks
only. -/
theorem exists_of_waits (h : threads.Orderly standing) (hwaits : threads.Waits t i) :
    ∃ own course found scopes, threads.courses[t]? = some (own, course) ∧
      t < threads.courses.length ∧ i ∈ found ∧ standing t = ⟨.cleared found, scopes⟩ := by
  obtain ⟨⟨own, course⟩, hcourse, ⟨j, access⟩, hasks, rfl, -⟩ := hwaits
  obtain ⟨ht, -⟩ := List.getElem?_eq_some_iff.mp hcourse
  obtain ⟨found, scopes, hi, hstanding⟩ := (h.keeps hcourse).standing_eq_of_asksFor? hasks
  exact ⟨own, course, found, scopes, hcourse, ht, hi, hstanding⟩

/-- Whatever lock a waiting thread holds, it is running a callback under it. -/
theorem callsBack_of_waits (h : threads.Orderly standing) {j : Fin n} (hwaits : threads.Waits t j)
    (hheld : (threads.store.shard i).lock.HeldBy (.root t)) : threads.CallsBack t i := by
  obtain ⟨own, course, found, scopes, hcourse, ht, -, hstanding⟩ := h.exists_of_waits hwaits
  rw [(h.shows ht).heldBy_iff] at hheld
  rw [h.callsBack_iff hcourse]
  rw [hstanding] at hheld ⊢
  exact hheld

/-- It does not hold the one that it waits for. -/
theorem not_heldBy_of_waits (h : threads.Orderly standing) (hwaits : threads.Waits t i) :
    ¬(threads.store.shard i).lock.HeldBy (.root t) := by
  obtain ⟨own, course, found, scopes, hcourse, ht, hi, hstanding⟩ := h.exists_of_waits hwaits
  intro hheld
  have hcalls := (h.callsBack_iff hcourse i).mp (h.callsBack_of_waits hwaits hheld)
  exact (h.shows ht).cleared i (hstanding ▸ hi) hcalls

/-- Somebody else holds it. -/
theorem exists_heldBy_of_waits (h : threads.Orderly standing) (hwaits : threads.Waits t i) :
    ∃ u < threads.courses.length, u ≠ t ∧ (threads.store.shard i).lock.HeldBy (.root u) := by
  obtain ⟨-, -, ⟨j, access⟩, -, rfl, hgrants⟩ := id hwaits
  obtain ⟨thread, hheld⟩ := Lock.exists_heldBy_of_grants_eq_false hgrants
  obtain ⟨u, hu, rfl⟩ := h.listed (.inl hheld)
  exact ⟨u, hu, fun hut => h.not_heldBy_of_waits hwaits (hut ▸ hheld), hheld⟩

/-- What the check answers is read off the thread's own callbacks. -/
theorem perform_check (h : threads.Orderly standing) {own : S} {course : Process .single n S V α}
    (hcourse : threads.courses[t]? = some (own, course)) (i : Fin n) :
    (Action.check i).perform (.root t) threads.store =
      (if threads.CallsBack t i then .unwound .reentrant else .returned (), threads.store) := by
  obtain ⟨ht, -⟩ := List.getElem?_eq_some_iff.mp hcourse
  have hmark := (h.shows ht).mem_markers_iff i
  rw [← h.callsBack_iff hcourse i] at hmark
  by_cases hcalls : threads.CallsBack t i
  · rw [Action.perform, if_pos (hmark.mpr hcalls), if_pos hcalls]
  · rw [Action.perform, if_neg fun hmem => hcalls (hmark.mp hmem), if_neg hcalls]

/-- Where no thread can go on, those that have not ended wait for each other: a thread that has
ended holds nothing. -/
theorem entangled_of_deadlocked (h : threads.Orderly standing) (hdead : threads.Deadlocked) :
    threads.Entangled threads.unfinished := by
  obtain ⟨hnot, hstuck⟩ := hdead
  refine ⟨?_, fun t ⟨⟨own, course⟩, hcourse, hended⟩ => ?_⟩
  · obtain ⟨course, hmem, hcourse⟩ : ∃ course ∈ threads.courses, ¬course.2.ended?.isSome := by
      simpa only [Ended, not_forall, exists_prop] using hnot
    obtain ⟨t, ht⟩ := List.getElem?_of_mem hmem
    exact ⟨t, course, ht, Option.not_isSome_iff_eq_none.mp hcourse⟩
  · have hstep := hstuck t
    simp only [Threads.step?, Option.mem_def.mp hcourse, Option.map_eq_none_iff] at hstep
    obtain ⟨i, access, hupcoming, hgrants⟩ := Process.exists_acquire_of_step?_eq_none hended hstep
    have hwaits : threads.Waits t i :=
      ⟨_, hcourse, (i, access), by rw [Process.asksFor?, hupcoming]; rfl, rfl, hgrants⟩
    obtain ⟨u, hu, -, hheld⟩ := h.exists_heldBy_of_waits hwaits
    refine ⟨i, hwaits, u, ⟨_, List.getElem?_eq_getElem hu, ?_⟩, hheld⟩
    refine Option.eq_none_iff_forall_ne_some.mpr fun result hresult => ?_
    exact h.not_heldBy (List.getElem?_eq_getElem hu)
      ((h.keeps (List.getElem?_eq_getElem hu)).holds_of_ended? hresult) i hheld

/-- Going from a thread to one whose lock it waits for leads round a ring. -/
theorem exists_ring_of_entangled (h : threads.Orderly standing) {stuck : Set Nat}
    (hstuck : threads.Entangled stuck) :
    ∃ (m : Nat) (ring : Fin (m + 2) → Nat), Function.Injective ring ∧ ∀ k, ring k ∈ stuck ∧
      ∃ i, threads.Waits (ring k) i ∧ threads.CallsBack (ring (k + 1)) i := by
  obtain ⟨hnonempty, hnext⟩ := hstuck
  have : Nonempty (Fin n) := ⟨⟨0, threads.store.pos⟩⟩
  choose! wants hwaits next hmem hheld using hnext
  have hfinite : stuck.Finite := (Set.finite_lt_nat threads.courses.length).subset fun t ht => by
    obtain ⟨-, -, -, -, -, hlt, -⟩ := h.exists_of_waits (hwaits t ht)
    exact hlt
  have : Finite stuck := hfinite.to_subtype
  have : Nonempty stuck := hnonempty.to_subtype
  obtain ⟨m, ring, hinjective, hring⟩ := exists_ring
    (fun t : stuck => (⟨next t, hmem t t.2⟩ : stuck)) fun t heq => by
      have hself : next t = t := congrArg Subtype.val heq
      refine h.not_heldBy_of_waits (hwaits t t.2) ?_
      have hnext := hheld t t.2
      rwa [hself] at hnext
  refine ⟨m, fun k => (ring k).val, Subtype.val_injective.comp hinjective,
    fun k => ⟨(ring k).2, ?_⟩⟩
  have hsucc : next (ring k) = ring (k + 1) := congrArg Subtype.val (hring k)
  have hnext := hheld _ (ring k).2
  rw [hsucc] at hnext
  exact ⟨wants (ring k), hwaits _ (ring k).2,
    h.callsBack_of_waits (hwaits _ (ring (k + 1)).2) hnext⟩

/-- Threads that keep to the order check their own marks, and no others. -/
theorem checksOwnMarks (h : threads.Orderly standing) : threads.ChecksOwnMarks where
  refuses {t own course i} hcourse hupcoming := by
    obtain ⟨ht, -⟩ := List.getElem?_eq_some_iff.mp hcourse
    refine ⟨h.perform_check hcourse i, ?_⟩
    rw [h.callsBack_iff hcourse, (h.shows ht).heldBy_iff,
      (h.keeps hcourse).holds_eq_scopes_of_starts hupcoming rfl]
    rfl
  waits hwaits := by
    obtain ⟨u, -, hne, hheld⟩ := h.exists_heldBy_of_waits hwaits
    exact ⟨h.not_heldBy_of_waits hwaits, u, hne, hheld⟩
  deadlocked := h.entangled_of_deadlocked
  ring := h.exists_ring_of_entangled
  goesOn hone hdead := by
    obtain ⟨m, ring, hinjective, hring⟩ :=
      h.exists_ring_of_entangled (h.entangled_of_deadlocked hdead)
    -- The first two of the ring are both in callbacks.
    obtain ⟨-, i, -, hfirst⟩ := hring (Fin.last (m + 1))
    obtain ⟨-, j, -, hsecond⟩ := hring 0
    rw [Fin.last_add_one] at hfirst
    rw [Fin.zero_add] at hsecond
    exact Fin.zero_ne_one (hinjective (hone _ _ i j hfirst hsecond))

end Orderly

/-- Threads of which none on the list can go on are deadlocked unless all have ended. -/
theorem deadlocked_of_forall {threads : Threads mode σ S V α n} (hnot : ¬threads.Ended)
    (h : ∀ t < threads.courses.length, (threads.step? t).isNone) : threads.Deadlocked := by
  refine ⟨hnot, fun t => ?_⟩
  by_cases ht : t < threads.courses.length
  · exact Option.isNone_iff_eq_none.mp (h t ht)
  · rw [step?, List.getElem?_eq_none (not_lt.mp ht)]

/-- **Crossed callbacks wait for good.** Two threads each update a key, and look up the other's key
from inside the callback. The keys' shards differ, so neither thread finds a mark of its own where
it asks, and neither is refused; each waits for the shard that the other's callback runs under. -/
theorem crossed_callbacks_deadlock :
    let config : Config Unit := { shardCount := 2 }
    let calling (mine other : String) : Program .single Unit Nat (Nat × Option Nat) :=
      Program.updateWith mine fun old => do
        let found ← Program.get other
        return (old.getD 0 + 1, found)
    ∃ store : Store Unit Nat config.shards, Store.ofConfig config = .ok store ∧ store.AtRest ∧
      let start := ofPrograms store [((), calling "a" "b"), ((), calling "b" "a")]
      let threads := start.follow (List.replicate 9 [0, 1]).flatten
      start.Reaches threads ∧ threads.Deadlocked ∧ ∃ i j, i ≠ j ∧
        (threads.CallsBack 0 i ∧ threads.Waits 0 j) ∧
        (threads.CallsBack 1 j ∧ threads.Waits 1 i) := by
  intro config calling
  obtain ⟨store, hstore⟩ : ∃ store : Store Unit Nat config.shards,
      Store.ofConfig config = .ok store := ⟨_, rfl⟩
  refine ⟨store, hstore, Store.atRest_of_ofConfig hstore, reaches_follow _ _, ?_,
    ⟨0, by decide⟩, ⟨1, by decide⟩, ?_⟩
  · cases hstore
    refine deadlocked_of_forall ?_ ?_
    · unfold Ended
      decide +kernel
    · decide +kernel
  · cases hstore
    decide +kernel

/-- **A request is refused, or waits for another thread.** Let any number of threads run any
programs on a store at rest, with callbacks that call back to any depth, in any interleaving. A
request is refused just if its thread is running a callback under the lock of that very shard, so no
thread waits for itself. If some threads wait for nobody but each other, as all do that have not
ended once nobody can go on, then there is a ring among them of at least two threads, each waiting
for a lock under which the next one is running a callback. -/
theorem requests_refused_or_in_ring {store : Store σ V n} (hrest : store.AtRest)
    (programs : List (S × Program .single S V α)) {threads : Threads .single σ S V α n}
    (h : (ofPrograms store programs).Reaches threads) : threads.ChecksOwnMarks := by
  obtain ⟨standing, horderly⟩ := (orderly_ofPrograms hrest programs).exists_of_reaches h
  exact horderly.checksOwnMarks

/-- A thread that visits and one that updates call each other's shards and wait for good, after a
third was refused its own shard and went on. -/
theorem requests_refused_or_in_ring_crossed :
    let config : Config Unit := { shardCount := 2 }
    let visiting : Program .single Unit Nat Bool := do
      Program.set "a" 1
      let visited ← Program.forEach fun _ _ => Program.set "b" 2
      return visited.isEmpty
    let updating : Program .single Unit Nat Bool := do
      let (_, ()) ← Program.updateWith "b" fun old => do
        Program.set "a" 3
        return (old.getD 0, ())
      return false
    let refused : Program .single Unit Nat Bool := do
      let (_, found) ← Program.updateWith "c" fun old => do
        let found ← Program.caught (Program.get "a")
        return (old.getD 0, found)
      return found matches .error .reentrant
    ∃ store : Store Unit Nat config.shards, Store.ofConfig config = .ok store ∧ store.AtRest ∧
      let start := ofPrograms store [((), visiting), ((), updating), ((), refused)]
      let threads := start.follow
        (List.replicate 25 2 ++ List.replicate 14 0 ++ List.replicate 9 1 ++ List.replicate 9 0)
      start.Reaches threads ∧ threads.Deadlocked ∧
        (threads.courses[2]?.bind fun course => course.2.ended?.map Except.toOption) =
          some (some true) ∧
        threads.ChecksOwnMarks := by
  intro config visiting updating refused
  obtain ⟨store, hstore⟩ : ∃ store : Store Unit Nat config.shards,
      Store.ofConfig config = .ok store := ⟨_, rfl⟩
  have hrest := Store.atRest_of_ofConfig hstore
  have hreaches := reaches_follow
    (ofPrograms store [((), visiting), ((), updating), ((), refused)])
    (List.replicate 25 2 ++ List.replicate 14 0 ++ List.replicate 9 1 ++ List.replicate 9 0)
  refine ⟨store, hstore, hrest, hreaches, ?_, ?_, requests_refused_or_in_ring hrest _ hreaches⟩
  · cases hstore
    refine deadlocked_of_forall ?_ ?_
    · unfold Ended
      decide +kernel
    · decide +kernel
  · cases hstore
    decide +kernel

end Threads

end ShardStore
