import ShardStore.Proofs.Deadlocks
import ShardStore.Proofs.Threads.Apart

/-!
# Threads with keys of their own

Any number of threads make calls about keys on one store, and no two of them are about the same key,
though their keys may share shards. Then they do not influence each other. Whichever way their
actions are interleaved, each call is answered, and every shard is left, as when the threads run one
after another, each to its end before the next one starts, in any order
(`Threads.separate_keys_as_in_any_order`).
-/

namespace ShardStore

variable {σ S V α : Type} {n : Nat}

namespace Threads

/-! ## One after another -/

/-- Thread `t` runs to its end, and nobody else acts meanwhile. A thread that would have to wait
stays where it is. -/
def complete (threads : Threads .single σ S V α n) (t : Nat) : Threads .single σ S V α n :=
  match threads.courses[t]? with
  | none => threads
  | some (own, course) =>
    match course.run (.root t) threads.store own with
    | (.returned value, store, own) =>
      { store, courses := threads.courses.set t (own, .done value) }
    | (.unwound fault, store, own) =>
      { store, courses := threads.courses.set t (own, .unwind fault) }
    | (.blocked, _, _) => threads

/-- Threads run to their ends one after another. -/
def inOrder (threads : Threads .single σ S V α n) (order : List Nat) : Threads .single σ S V α n :=
  order.foldl complete threads

variable {start threads threads' : Threads .single σ S V α n} {t : Nat}

/-- What one thread passes through, the threads pass through. -/
theorem reaches_set {own own' : S} {course course' : Process .single n S V α} {store' : Store σ V n}
    (hcourse : threads.courses[t]? = some (own, course))
    (h : Process.Reaches (.root t) course threads.store own course' store' own') :
    threads.Reaches { store := store', courses := threads.courses.set t (own', course') } := by
  obtain ⟨ht, hget⟩ := List.getElem?_eq_some_iff.mp hcourse
  induction h with
  | refl =>
    rw [← hget, List.set_getElem_self]
    exact .refl threads
  | @step course₁ course₂ store₁ store₂ own₁ own₂ _ hstep ih =>
    refine .step t ih ?_
    have hstep' : course₁.step? { origin := t } store₁ own₁ = some (course₂, store₂, own₂) := hstep
    simp only [step?, List.getElem?_set_self ht, hstep', Option.map_some, List.set_set]

/-- Where nobody holds a lock, a thread runs to its end, and nobody holds one after it. -/
theorem exists_complete_eq {own : S} {course : Process .single n S V α}
    (hrest : threads.store.AtRest) (hcourse : threads.courses[t]? = some (own, course))
    (hkeeps : course.Keeps .idle .idle) :
    ∃ store' own' course',
      threads.complete t = { store := store', courses := threads.courses.set t (own', course') } ∧
      threads.Reaches (threads.complete t) ∧ store'.AtRest ∧ course'.Keeps .idle .idle ∧
      course'.ended?.isSome := by
  obtain ⟨course', hreaches, hends⟩ :=
    Process.exists_reaches_run (.root t) course threads.store own
  obtain ⟨hnot, hinside, -⟩ := hkeeps.run_inside (Store.inside_nil_iff.mpr hrest) own
  have hrest' := Store.inside_nil_iff.mp hinside
  rcases hrun : course.run (.root t) threads.store own with ⟨outcome, store', own'⟩
  rw [hrun] at hreaches hends hnot hrest'
  have hset := reaches_set hcourse hreaches
  cases outcome with
  | returned value =>
    obtain rfl : course' = .done value := hends
    have hcomplete : threads.complete t =
        { store := store', courses := threads.courses.set t (own', .done value) } := by
      simp only [complete, hcourse, hrun]
    exact ⟨store', own', _, hcomplete, hcomplete ▸ hset, hrest', .inl rfl, rfl⟩
  | unwound fault =>
    obtain rfl : course' = .unwind fault := hends
    have hcomplete : threads.complete t =
        { store := store', courses := threads.courses.set t (own', .unwind fault) } := by
      simp only [complete, hcourse, hrun]
    exact ⟨store', own', _, hcomplete, hcomplete ▸ hset, hrest', rfl, rfl⟩
  | blocked => exact (hnot rfl).elim

/-- Thread `t` has ended, if there is one. -/
def EndedAt (threads : Threads .single σ S V α n) (t : Nat) : Prop :=
  ∀ now, threads.courses[t]? = some now → now.2.ended?.isSome

/-- One turn: thread `t` ends, if there is one, and those that have ended stay so. -/
theorem reaches_complete (hrest : threads.store.AtRest)
    (hkeeps : ∀ now ∈ threads.courses, now.2.Keeps .idle .idle) (t : Nat) :
    threads.Reaches (threads.complete t) ∧ (threads.complete t).store.AtRest ∧
      (∀ now ∈ (threads.complete t).courses, now.2.Keeps .idle .idle) ∧
      ∀ u, u = t ∨ threads.EndedAt u → (threads.complete t).EndedAt u := by
  cases hcourse : threads.courses[t]? with
  | none =>
    have hcomplete : threads.complete t = threads := by simp only [complete, hcourse]
    rw [hcomplete]
    refine ⟨.refl threads, hrest, hkeeps, fun u hu => ?_⟩
    rcases hu with rfl | hended
    · exact fun now hnow => nomatch hcourse.symm.trans hnow
    · exact hended
  | some first =>
    obtain ⟨ht, -⟩ := List.getElem?_eq_some_iff.mp hcourse
    obtain ⟨store', own', course', hcomplete, hreaches, hrest', hkeeps', hended'⟩ :=
      exists_complete_eq hrest hcourse (hkeeps _ (List.mem_of_getElem? hcourse))
    refine ⟨hreaches, ?_, ?_, ?_⟩ <;> rw [hcomplete]
    · exact hrest'
    · intro now hmem
      rcases List.mem_or_eq_of_mem_set hmem with hmem | rfl
      · exact hkeeps now hmem
      · exact hkeeps'
    · intro u hu now hnow
      by_cases hut : u = t
      · subst hut
        rw [List.getElem?_set_self ht] at hnow
        cases hnow
        exact hended'
      · rw [List.getElem?_set_ne (Ne.symm hut)] at hnow
        exact hu.resolve_left hut now hnow

/-- **Running threads one after another is one of the interleavings**, and all that had their turn
have ended. -/
theorem reaches_inOrder (order : List Nat) (hrest : threads.store.AtRest)
    (hkeeps : ∀ now ∈ threads.courses, now.2.Keeps .idle .idle) :
    threads.Reaches (threads.inOrder order) ∧
      ∀ t, t ∈ order ∨ threads.EndedAt t → (threads.inOrder order).EndedAt t := by
  induction order generalizing threads with
  | nil => exact ⟨.refl threads, fun t ht => ht.resolve_left List.not_mem_nil⟩
  | cons first order ih =>
    obtain ⟨hreaches, hrest', hkeeps', hended⟩ := reaches_complete hrest hkeeps first
    obtain ⟨hreaches', hended'⟩ := ih hrest' hkeeps'
    refine ⟨hreaches.trans hreaches', fun t ht => hended' t ?_⟩
    rcases ht with hmem | hbefore
    · rcases List.mem_cons.mp hmem with rfl | hmem
      · exact .inr (hended t (.inl rfl))
      · exact .inl hmem
    · exact .inr (hended t (.inr hbefore))

/-! ## At once -/

/-- **Until all threads have ended, one can make a step**: a thread that waits runs no callback, so
it holds no lock that another one could wait for. -/
theorem Apart.exists_step {send : String → Except Fault (Fin n)} {keys : Nat → Set String}
    {solos : List (Solo σ S V α n)} {standing : Nat → Standing n}
    (h : Apart send keys start threads solos) (horderly : threads.Orderly standing)
    (hnot : ¬threads.Ended) : ∃ t, (threads.step? t).isSome := by
  by_contra hstuck
  have hdead : threads.Deadlocked :=
    ⟨hnot, fun t => Option.not_isSome_iff_eq_none.mp fun hsome => hstuck ⟨t, hsome⟩⟩
  obtain ⟨⟨t, ht⟩, hwaiting⟩ := horderly.entangled_of_deadlocked hdead
  obtain ⟨i, -, u, hu, hheld⟩ := hwaiting t ht
  obtain ⟨j, hwaits, -⟩ := hwaiting u hu
  obtain ⟨now, hnow, hrunning⟩ := horderly.callsBack_of_waits hwaits hheld
  obtain ⟨now', hnow', ⟨j', access⟩, hasks, -⟩ := hwaits
  obtain rfl : now = now' := Option.some.inj (hnow.symm.trans hnow')
  obtain ⟨hlt, -⟩ := List.getElem?_eq_some_iff.mp hnow
  have hfollows := h.follows (List.getElem?_eq_getElem (h.length ▸ hlt)) hnow
    (List.getElem?_eq_getElem (h.length_solos ▸ h.length ▸ hlt))
  obtain ⟨⟨β, action⟩, hupcoming, hasks⟩ := Option.bind_eq_some_iff.mp hasks
  have hnothing := (hfollows.mirrors.running_eq_nil hupcoming (.inr (by rw [hasks]; rfl))).1
  rw [hnothing] at hrunning
  exact List.not_mem_nil hrunning

end Threads

/-- On a store at rest, a call is answered, if only with its fault. -/
theorem Call.exists_run_answered {store : Store σ V n} (hrest : store.AtRest) (call : Call S V)
    (me : ThreadId) (own : S) :
    ∃ answer store' own', (call.answered : Program .single S V (Answer V)).run me store own =
      (.returned answer, store', own') ∧ store'.AtRest := by
  have hkeeps : (call.answered.process : Process .single n S V (Answer V)).Keeps .idle .idle :=
    Program.keeps_process _
  obtain ⟨hnot, hinside, -⟩ :=
    hkeeps.run_inside (Store.inside_nil_iff.mpr hrest : store.Inside me []) own
  rw [← Program.run] at hnot hinside
  have hrest' := Store.inside_nil_iff.mp hinside
  rw [answered_eq, Program.run, Program.process, Process.run] at hnot hrest' ⊢
  rcases hrun : call.program.process.run me store own with ⟨outcome, store', own'⟩
  rw [hrun] at hnot hrest'
  cases outcome with
  | returned answer => exact ⟨_, store', own', rfl, hrest'⟩
  | unwound fault => exact ⟨_, store', own', rfl, hrest'⟩
  | blocked => exact (hnot rfl).elim

/-- Calls one after another are answered one by one. -/
theorem Call.exists_run_session {store : Store σ V n} (hrest : store.AtRest)
    (calls : List (Call S V)) (me : ThreadId) (own : S) :
    ∃ answers last own', (session calls : Program .single S V (List (Answer V))).run me store own =
        (.returned answers, last, own') ∧ answers.length = calls.length := by
  induction calls generalizing store own with
  | nil => exact ⟨[], store, own, rfl, rfl⟩
  | cons call calls ih =>
    obtain ⟨answer, store', own', hrun, hrest'⟩ := call.exists_run_answered hrest me own
    obtain ⟨answers, last, own'', hrun', hlength⟩ := ih hrest' own'
    refine ⟨answer :: answers, last, own'', ?_, congrArg Nat.succ hlength⟩
    rw [session, List.mapM_cons, Program.bind_eq, Program.run_bind, hrun]
    simp only [Program.bind_eq, Program.run_bind]
    rw [show calls.mapM answered = session calls from rfl, hrun']
    rfl

/-- Shards at rest are known by their tables and their counters. -/
theorem Shard.AtRest.ext {shard shard' : Shard V} (h : shard.AtRest) (h' : shard'.AtRest)
    (htable : shard.table = shard'.table) (htally : shard.tally = shard'.tally) :
    shard = shard' := by
  obtain ⟨hlock, hmarkers⟩ := h
  obtain ⟨hlock', hmarkers'⟩ := h'
  cases shard
  cases shard'
  simp only [Shard.mk.injEq]
  exact ⟨htable, htally, hlock.trans hlock'.symm, hmarkers.trans hmarkers'.symm⟩

namespace Threads

/-- Threads that make some calls each, one after another. -/
def ofSessions (store : Store σ V n) (works : List (S × List (Call S V))) :
    Threads .single σ S V (List (Answer V)) n :=
  ofPrograms store (works.map fun (own, calls) => (own, Call.session calls))

/-- The threads have ended as they do one after another, in certain turns. -/
structure EndsAsInOrder (threads : Threads .single σ S V (List (Answer V)) n) (store : Store σ V n)
    (works : List (S × List (Call S V))) (order : List Nat) : Prop where
  ended : ((ofSessions store works).inOrder order).Ended
  /-- Each thread is told the same, and has the same variables. -/
  courses : ((ofSessions store works).inOrder order).courses = threads.courses
  /-- Each shard has the same table and the same counters. -/
  shards : ∀ i, ((ofSessions store works).inOrder order).store.shard i = threads.store.shard i

variable {store : Store σ V n} {works : List (S × List (Call S V))} {keys : Nat → Set String}
  {threads : Threads .single σ S V (List (Answer V)) n}

/-- The programs of threads that make calls about keys of their own. -/
theorem separate_ofSessions (hrest : store.AtRest) (hrouting : store.routing.ByHash)
    (hdisjoint : Pairwise (Function.onFun Disjoint keys))
    (hamong : ∀ (t : Nat) (work : S × List (Call S V)), works[t]? = some work →
      ∀ call ∈ work.2, call.Among (keys t)) :
    (ofSessions store works).Separate (fun key => (store.route key).1) keys := by
  have hfirst {t : Nat} {first : S × Process .single n S V (List (Answer V))}
      (h : (ofSessions store works).courses[t]? = some first) :
      ∃ work, works[t]? = some work ∧ first = (work.1, (Call.session work.2).process) := by
    simp only [ofSessions, ofPrograms, List.map_map, List.getElem?_map, Option.map_eq_some_iff] at h
    obtain ⟨work, hwork, rfl⟩ := h
    exact ⟨work, hwork, rfl⟩
  refine ⟨hrest, Store.sendsBy_route hrouting, hdisjoint, fun h => ?_, fun h => ?_⟩
  · obtain ⟨work, -, rfl⟩ := hfirst h
    exact Program.keeps_process _
  · obtain ⟨work, hwork, rfl⟩ := hfirst h
    exact Call.mirrors_session (hamong _ work hwork)

/-- **Threads with keys of their own do not influence each other.** Each thread makes calls about
its own keys only, on a store at rest whose router depends on hashes and the number of shards.
Whichever way the threads are interleaved, some thread can go on until all have ended. Then all calls
have been answered, and the answers, the threads' variables, the tables and the counters are those of
the threads running one after another, in any order. -/
theorem separate_keys_as_in_any_order (hrest : store.AtRest) (hrouting : store.routing.ByHash)
    (hdisjoint : Pairwise (Function.onFun Disjoint keys))
    (hamong : ∀ (t : Nat) (work : S × List (Call S V)), works[t]? = some work →
      ∀ call ∈ work.2, call.Among (keys t))
    (h : (ofSessions store works).Reaches threads) :
    (¬threads.Ended → ∃ t, (threads.step? t).isSome) ∧
      (threads.Ended →
        (∀ (t : Nat) (work : S × List (Call S V)), works[t]? = some work → ∃ own answers,
          threads.courses[t]? = some (own, .done answers) ∧ answers.length = work.2.length) ∧
        ∀ order : List Nat, order.Perm (List.range works.length) →
          threads.EndsAsInOrder store works order) := by
  have hstart := separate_ofSessions hrest hrouting hdisjoint hamong
  have hbegin : (ofSessions store works).Orderly fun _ => .idle := orderly_ofPrograms hrest _
  obtain ⟨standing, horderly⟩ := hbegin.exists_of_reaches h
  obtain ⟨solos, hapart⟩ := hstart.exists_apart hbegin h
  refine ⟨hapart.exists_step horderly, fun hended =>
    ⟨fun t work hwork => ?_, fun order hperm => ?_⟩⟩
  · have hfirst : (ofSessions store works).courses[t]? =
        some (work.1, (Call.session work.2).process) := by
      simp only [ofSessions, ofPrograms, List.map_map, List.getElem?_map, hwork]
      rfl
    obtain ⟨answers, last, own', hrun, hlength⟩ :=
      Call.exists_run_session hrest work.2 (.root t) work.1
    obtain ⟨⟨own, course⟩, last', hnow, hresult, hrun'⟩ :=
      hapart.exists_run_eq_of_ended hended hfirst
    have hdone : (Process.done answers : Process .single n S V _).run (.root t) last own' =
        course.run (.root t) last' own := hrun.symm.trans hrun'
    obtain ⟨rfl, -, rfl⟩ := Process.eq_of_run_eq rfl hresult hdone
    exact ⟨_, answers, hnow, hlength⟩
  · have hkeeps : ∀ now ∈ (ofSessions store works).courses, now.2.Keeps .idle .idle := by
      intro now hmem
      obtain ⟨t, hnow⟩ := List.getElem?_of_mem hmem
      exact hstart.keeps hnow
    obtain ⟨hreaches, hturns⟩ := reaches_inOrder order hrest hkeeps
    obtain ⟨standing', horderly'⟩ := hbegin.exists_of_reaches hreaches
    obtain ⟨solos', hapart'⟩ := hstart.exists_apart hbegin hreaches
    have hended' : ((ofSessions store works).inOrder order).Ended := by
      intro now hmem
      obtain ⟨t, hnow⟩ := List.getElem?_of_mem hmem
      obtain ⟨ht, -⟩ := List.getElem?_eq_some_iff.mp hnow
      refine hturns t (.inl (hperm.mem_iff.mpr (List.mem_range.mpr ?_))) now hnow
      rw [hapart'.length] at ht
      simpa only [ofSessions, ofPrograms, List.length_map] using ht
    obtain ⟨hcourses, hshards⟩ := hapart'.eq_of_ended hapart hended' hended
    exact ⟨hended', hcourses, fun i => Shard.AtRest.ext (horderly'.atRest_of_ended hended' i)
      (horderly.atRest_of_ended hended i) (hshards i).1 (hshards i).2⟩

/-- Three threads on two shards, with a router that counts its questions and gives up on one key, so
that an insertion of several pairs stops halfway, and with an upsert that is given up. -/
theorem separate_keys_as_in_any_order_on_two_shards :
    let router : Router Nat :=
      ⟨fun asked hash _ => (asked + 1, if hash = Hasher.fnv32.hashKey "x" then
        .error (.router "no shard") else .ok hash)⟩
    let config : Config Nat := { shardCount := 2, routing := .custom router 0 }
    let add : Option Nat → Nat → Nat → Except Fault Nat × Nat :=
      fun old given calls => (.ok (old.getD 0 + given), calls + 1)
    let giveUp : Option Nat → Nat → Nat → Except Fault Nat × Nat :=
      fun _ _ calls => (.error (.callback "no value"), calls + 1)
    let works : List (Nat × List (Call Nat Nat)) := [
      (0, [.setMany [("a", 1), ("x", 2), ("d", 3)], .upsert "a" 10 add]),
      (0, [.keyed (.setIfAbsent "b" 4), .keyed (.pop "b"), .upsert "b" 5 giveUp]),
      (0, [.keyed (.set "c" 6), .keyed (.remove "e"), .keyed (.has "c")])]
    let owner : String → Nat :=
      fun key => if key ∈ ["a", "d", "x"] then 0 else if key = "b" then 1 else 2
    let keys : Nat → Set String := fun t => { key | owner key = t }
    ∃ store : Store Nat Nat config.shards, Store.ofConfig config = .ok store ∧
      store.AtRest ∧ store.routing.ByHash ∧ Pairwise (Function.onFun Disjoint keys) ∧
      (∀ (t : Nat) (work : Nat × List (Call Nat Nat)), works[t]? = some work →
        ∀ call ∈ work.2, call.Among (keys t)) ∧
      let threads := (ofSessions store works).follow (List.replicate 40 [2, 1, 0]).flatten
      (ofSessions store works).Reaches threads ∧ threads.Ended ∧
      threads.store.entries = [("a", 11), ("c", 6)] ∧
      (∀ (t : Nat) (work : Nat × List (Call Nat Nat)), works[t]? = some work → ∃ own answers,
        threads.courses[t]? = some (own, .done answers) ∧ answers.length = work.2.length) ∧
      threads.EndsAsInOrder store works [1, 2, 0] := by
  intro router config add giveUp works owner keys
  obtain ⟨store, hstore⟩ : ∃ store : Store Nat Nat config.shards,
      Store.ofConfig config = .ok store := ⟨_, rfl⟩
  have hrest := Store.atRest_of_ofConfig hstore
  have hrouting : store.routing.ByHash := by
    rw [(Store.of_ofConfig hstore).2.1]
    exact ⟨fun hash _ => if hash = Hasher.fnv32.hashKey "x" then
      .error (.router "no shard") else .ok hash, fun _ _ _ => rfl⟩
  have hdisjoint : Pairwise (Function.onFun Disjoint keys) := fun t u htu =>
    Set.disjoint_left.mpr fun key ht hu => htu (Eq.trans (Eq.symm ht) hu)
  have hamong : ∀ (t : Nat) (work : Nat × List (Call Nat Nat)), works[t]? = some work →
      ∀ call ∈ work.2, call.Among (keys t) := by
    intro t work hwork
    rcases t with _ | _ | _ | t <;> cases hwork <;>
      simp [Call.Among, Keyed.key, keys, owner, or_imp, forall_and]
  have hreaches := reaches_follow (ofSessions store works) (List.replicate 40 [2, 1, 0]).flatten
  have hended : ((ofSessions store works).follow (List.replicate 40 [2, 1, 0]).flatten).Ended := by
    cases hstore
    unfold Ended
    decide +kernel
  obtain ⟨htold, horder⟩ :=
    (separate_keys_as_in_any_order hrest hrouting hdisjoint hamong hreaches).2 hended
  refine ⟨store, hstore, hrest, hrouting, hdisjoint, hamong, hreaches, hended, ?_, htold,
    horder [1, 2, 0] (by decide)⟩
  cases hstore
  decide +kernel

end Threads

end ShardStore
