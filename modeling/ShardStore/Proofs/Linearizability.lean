import ShardStore.Proofs.Threads.Linear
import ShardStore.Proofs.Threads.OneKey

/-!
# Calls about keys are linearizable

Any number of threads make calls about keys on one store, whose router depends on hashes and the
number of shards only, and their actions are interleaved in any way that the locks admit. Then they
are told what they would be told if all calls were made one after another in some order, in which
each thread's calls stand in the thread's own order, and the shards' tables and counters are left
as these calls leave them; and as long as some thread has not ended, one of them can go on.
-/

namespace ShardStore

variable {S V : Type}

/-! ## All calls, thread by thread -/

/-- Calls sorted by the threads that have made them. -/
theorem perm_flatMap_madeBy {made : List (Made S V)} {count : Nat}
    (h : ∀ m ∈ made, m.thread < count) :
    made.Perm ((List.range count).flatMap fun t => madeBy t made) := by
  induction count generalizing made with
  | zero =>
    obtain rfl := List.eq_nil_iff_forall_not_mem.mpr fun m hmem => Nat.not_lt_zero _ (h m hmem)
    exact .nil
  | succ count ih =>
    set rest := made.filter fun m => !decide (m.thread = count)
    have hrest : rest.Perm ((List.range count).flatMap fun t => madeBy t rest) := by
      refine ih fun m hmem => ?_
      obtain ⟨hmem, hne⟩ := List.mem_filter.mp hmem
      have hlt := h m hmem
      simp only [Bool.not_eq_true', decide_eq_false_iff_not] at hne
      omega
    have hsame : ∀ t ∈ List.range count, madeBy t rest = madeBy t made := by
      intro t ht
      rw [madeBy, madeBy, List.filter_filter]
      refine List.filter_congr fun m _ => ?_
      have hlt := List.mem_range.mp ht
      by_cases hm : m.thread = t
      · simp [hm]; omega
      · simp [hm]
    have hlists : (List.range count).flatMap (fun t => madeBy t rest) =
        (List.range count).flatMap fun t => madeBy t made := by
      rw [List.flatMap_def, List.flatMap_def, List.map_congr_left hsame]
    rw [List.range_succ, List.flatMap_append, List.flatMap_singleton, ← hlists]
    have hsplit : (madeBy count made ++ rest).Perm made :=
      List.filter_append_perm (fun m : Made S V => decide (m.thread = count)) made
    exact hsplit.symm.trans (List.perm_append_comm.trans (hrest.append_right _))

/-- The calls that are made in turn are the calls of all threads. -/
theorem Threads.EndsAs.perm {σ : Type} {n : Nat} {threads : Threads .single σ S V (List (Answer V)) n}
    {store last : Store σ V n} {works : List (S × List (KeyCall S V))} {made : List (Made S V)}
    {owns : List S} (h : threads.EndsAs store works made last owns) :
    (made.map Made.call).Perm (works.flatMap Prod.snd) := by
  have hsorted := (perm_flatMap_madeBy fun m hmem => h.inTurn.thread_lt hmem).map Made.call
  have hlists : works.map Prod.snd =
      (List.range (works.map Prod.fst).length).map fun t => (madeBy t made).map Made.call := by
    refine List.ext_getElem (by simp only [List.length_map, List.length_range]) fun t ht ht' => ?_
    rw [List.length_map] at ht
    rw [List.getElem_map, List.getElem_map, List.getElem_range]
    exact (h.calls (List.getElem?_eq_getElem ht)).symm
  rwa [List.map_flatMap, List.flatMap_def, ← hlists, ← List.flatMap_def] at hsorted

/-! ## Calls about one key -/

/-- The calls about one key. -/
def callsOn (key : String) (calls : List (KeyCall S V)) : List (KeyCall S V) :=
  calls.filter fun call => call.key = key

/-- What comes of calls of several threads for one key, with the value that was there before and the
one that is there after them. -/
structure KeyOutcome (key : String) (calls : List (KeyCall S V)) (made : List (Made S V))
    (initial final : Option V) : Prop where
  /-- Each call finds what the one before it has left. -/
  inTurn : OneKey initial (madeOn key made) final
  /-- No upsert is lost: where the other calls look up, the value is made by all upserts, each
  combining what the one before has made. -/
  combined : ∀ f : KeyCall S V → Option V → V,
    (∀ call ∈ callsOn key calls, call.access = .shared ∨ call.Combines (f call)) →
    ∃ order : List (KeyCall S V),
      order.Perm ((callsOn key calls).filter fun call => call.access = .exclusive) ∧
      final = order.foldl (fun old call => some (f call old)) initial
  /-- Under an absent key that is not removed, at most one insertion is told that it was first. -/
  oneFirst : initial = none → (∀ call ∈ callsOn key calls, call.removes = false) →
    (madeOn key made).countP Made.wins ≤ 1
  /-- And one is, if nothing else stores. -/
  someFirst : initial = none →
    (∀ call ∈ callsOn key calls, call.insertsFirst = true ∨ call.access = .shared) →
    (∃ call ∈ callsOn key calls, call.insertsFirst = true) → (madeOn key made).countP Made.wins = 1
  /-- What `pop` hands out was there before or was stored, once for each time that it is handed
  out, and what is left is not among it. -/
  handedOnce : ((madeOn key made).filterMap Made.handed? ++ final.toList).Subperm
    (initial.toList ++ (madeOn key made).filterMap Made.stored?)

/-- The calls about a key that are made in turn are those of the threads. -/
theorem map_madeOn (key : String) (made : List (Made S V)) :
    (madeOn key made).map Made.call = callsOn key (made.map Made.call) := by
  rw [madeOn, callsOn, List.filter_map]
  rfl

/-- **Calls in turn about one key** have such an outcome. -/
theorem OneKey.outcome {key : String} {calls : List (KeyCall S V)} {made : List (Made S V)}
    {initial final : Option V} (h : OneKey initial (madeOn key made) final)
    (hperm : (made.map Made.call).Perm calls) : KeyOutcome key calls made initial final := by
  have hon : ((madeOn key made).map Made.call).Perm (callsOn key calls) := by
    rw [map_madeOn]
    exact hperm.filter _
  have hmem {m : Made S V} (hm : m ∈ madeOn key made) : m.call ∈ callsOn key calls :=
    hon.mem_iff.mp (List.mem_map_of_mem hm)
  have hkept {call : KeyCall S V} (hcall : call.insertsFirst = true ∨ call.access = .shared) :
      call.removes = false := by
    cases call with
    | keyed call => cases call <;> first | rfl | (rcases hcall with hcall | hcall <;> cases hcall)
    | upsert => rfl
  refine ⟨h, fun f hf => ⟨_, hon.filter _, h.eq_foldl_of_combines fun m hm => hf _ (hmem hm)⟩, ?_, ?_,
    h.handed_subperm⟩
  · rintro rfl hkeep
    exact (h.countP_wins_le fun m hm => hkeep _ (hmem hm)).trans (Bool.toNat_le _)
  · rintro rfl honly ⟨call, hcall, hinserts⟩
    obtain ⟨m, hm, rfl⟩ := List.mem_map.mp (hon.mem_iff.mpr hcall)
    have hsome := h.isSome_of_insertsFirst (fun m hm => hkept (honly _ (hmem hm))) ⟨m, hm, hinserts⟩
    rw [h.countP_wins_eq fun m hm => honly _ (hmem hm), hsome]
    rfl

/-! ## All interleavings -/

namespace Threads

variable {σ : Type} {n : Nat} {store : Store σ V n} {works : List (S × List (KeyCall S V))}
  {threads : Threads .single σ S V (List (Answer V)) n}

/-- Until all threads have ended, one can make a step. -/
theorem exists_step_of_reaches (hrest : store.AtRest) (hrouting : store.routing.ByHash)
    (h : (ofCalls store works).Reaches threads) (hnot : ¬threads.Ended) :
    ∃ t, (threads.step? t).isSome := by
  obtain ⟨standing, made, serial, callers, horderly, hlinear⟩ :=
    Linear.exists_of_reaches hrest (Store.sendsBy_route hrouting) h
  exact hlinear.exists_step horderly hnot

/-- Threads end as calls in turn do, and so does every key. -/
theorem exists_endsAs_of_reaches (hrest : store.AtRest) (hrouting : store.routing.ByHash)
    (h : (ofCalls store works).Reaches threads) (hended : threads.Ended) :
    ∃ made last owns, threads.EndsAs store works made last owns ∧
      ∀ key i, (store.route key).1 = .ok i → KeyOutcome key (works.flatMap Prod.snd) made
        (store.table i)[key]? (threads.store.table i)[key]? := by
  have hsends := Store.sendsBy_route hrouting
  obtain ⟨standing, made, serial, callers, horderly, hlinear⟩ :=
    Linear.exists_of_reaches hrest hsends h
  have hends := hlinear.endsAs_of_ended horderly hended
  refine ⟨made, serial, _, hends, fun key i hroute => ?_⟩
  obtain ⟨-, -, hone⟩ := hends.inTurn.oneKey hrest hsends hroute
  rw [hends.table]
  exact hone.outcome hends.perm

/-- **Calls about keys are linearizable.** Whichever interleaving of the threads' actions the locks
admit, some thread can go on until all have ended. Then the threads' answers and the shards' tables
and counters are those of all calls made one after another, each thread's in its own order. So under
each key that the router has a place for, no upsert is lost, at most one insertion is told that it
was first, and no value is handed out twice. -/
theorem calls_linearizable (hrest : store.AtRest) (hrouting : store.routing.ByHash)
    (works : List (S × List (KeyCall S V))) (h : (ofCalls store works).Reaches threads) :
    (¬threads.Ended → ∃ t, (threads.step? t).isSome) ∧
      (threads.Ended → ∃ made last owns, threads.EndsAs store works made last owns ∧
        ∀ key i, (store.route key).1 = .ok i → KeyOutcome key (works.flatMap Prod.snd) made
          (store.table i)[key]? (threads.store.table i)[key]?) :=
  ⟨exists_step_of_reaches hrest hrouting h, exists_endsAs_of_reaches hrest hrouting h⟩

/-- Steps of certain threads, one after another; a thread that cannot go on is passed over. -/
def follow {α : Type} (threads : Threads .single σ S V α n) (schedule : List Nat) :
    Threads .single σ S V α n :=
  schedule.foldl (fun threads t => (threads.step? t).getD threads) threads

theorem reaches_follow {α : Type} (threads : Threads .single σ S V α n) (schedule : List Nat) :
    threads.Reaches (threads.follow schedule) := by
  induction schedule generalizing threads with
  | nil => exact .refl threads
  | cons t rest ih =>
    have hrest := ih ((threads.step? t).getD threads)
    cases hstep : threads.step? t with
    | none =>
      rw [hstep] at hrest
      rw [follow, List.foldl_cons, hstep]
      exact hrest
    | some threads' =>
      rw [hstep] at hrest
      rw [follow, List.foldl_cons, hstep]
      exact (Reaches.step t (.refl threads) hstep).trans hrest

/-- Three threads that act in turns, and insert, combine and take out, mostly under one key. -/
theorem calls_linearizable_in_turns :
    let config : Config Unit := { shardCount := 2 }
    let add : Option Nat → Nat → Unit → Except Fault Nat × Unit :=
      fun old given own => (.ok (old.getD 0 + given), own)
    let works : List (Unit × List (KeyCall Unit Nat)) := [
      ((), .keyed (.setIfAbsent "a" 1) :: .upsert "a" 10 add :: KeyCall.sets [("b", 3), ("c", 4)]),
      ((), [.keyed (.setIfAbsent "a" 2), .keyed (.pop "a")]),
      ((), [.upsert "a" 20 add, .keyed (.get "a")])]
    ∃ store : Store Unit Nat config.shards, Store.ofConfig config = .ok store ∧
      store.AtRest ∧ store.routing.ByHash ∧
      let threads := (ofCalls store works).follow (List.replicate 60 [2, 1, 0]).flatten
      (ofCalls store works).Reaches threads ∧ threads.Ended ∧
      threads.store.entries = [("a", 10), ("c", 4), ("b", 3)] ∧
      ∃ made last owns, threads.EndsAs store works made last owns ∧
        ∀ key i, (store.route key).1 = .ok i → KeyOutcome key (works.flatMap Prod.snd) made
          (store.table i)[key]? (threads.store.table i)[key]? := by
  intro config add works
  obtain ⟨store, hstore⟩ : ∃ store : Store Unit Nat config.shards,
      Store.ofConfig config = .ok store := ⟨_, rfl⟩
  have hrest := Store.atRest_of_ofConfig hstore
  have hrouting : store.routing.ByHash := by
    rw [(Store.of_ofConfig hstore).2.1]
    exact Routing.stateless_modulo.byHash
  have hreaches := reaches_follow (ofCalls store works) (List.replicate 60 [2, 1, 0]).flatten
  have hended : ((ofCalls store works).follow (List.replicate 60 [2, 1, 0]).flatten).Ended := by
    cases hstore
    unfold Ended
    decide +kernel
  refine ⟨store, hstore, hrest, hrouting, hreaches, hended, ?_,
    (calls_linearizable hrest hrouting works hreaches).2 hended⟩
  cases hstore
  decide +kernel

end Threads

end ShardStore
