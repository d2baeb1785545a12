import Mathlib.Data.Set.BooleanAlgebra
import Mathlib.Logic.Pairwise
import Mathlib.Order.CompletePartialOrder
import ShardStore.Proofs.Threads.Linear
import ShardStore.Proofs.Threads.Mirrored

/-!
# Each thread as if it were alone

Several threads are at work on one store, and no two of them are about the same key. Then each one
does what it does if it is alone on the store that all have started on. `Threads.Apart` follows a run
of all threads with a run of each thread by itself: under the thread's keys, the shared store and its
own one are the same, and what all have counted is what each has counted by itself. So what they
leave is read off the runs of each one, whichever way they were interleaved (`Apart.eq_of_ended`).
-/

namespace ShardStore

variable {σ S V α : Type} {n : Nat} {send : String → Except Fault (Fin n)} {keys : Nat → Set String}

/-- A thread by itself. -/
structure Solo (σ S V α : Type) (n : Nat) where
  course : Process .single n S V α
  store : Store σ V n
  /-- What it has read of the shard that it holds among the others, with what it has put there. -/
  seen : Option (Fin n × Table V)
  /-- What it has counted so far. -/
  counts : Fin n → Multiset Counter

/-- A thread that started on a store with `first` and is now at `now`, among others on the shared
store, and the same thread by itself. -/
structure Solo.Follows (solo : Solo σ S V α n) (send : String → Except Fault (Fin n))
    (keys : Set String) (me : ThreadId) (start : Store σ V n) (first : S × Process .single n S V α)
    (shared : Store σ V n) (now : S × Process .single n S V α) : Prop where
  mirrors : Process.Mirrors keys solo.seen now.2 solo.course
  reaches : Process.Reaches me first.2 start first.1 solo.course solo.store now.1
  sends : solo.store.SendsBy send
  tables : ∀ i, (shared.table i).AgreesOn keys (solo.store.table i)
  reading : shared.Reading me solo.seen
  tally : ∀ i, (solo.store.shard i).tally = (start.shard i).tally.plus (solo.counts i)

namespace Threads

/-- The keys that none of the threads is about. -/
def unclaimed (threads : Threads .single σ S V α n) (keys : Nat → Set String) : Set String :=
  { key | ∀ t < threads.courses.length, key ∉ keys t }

/-- Threads that have started as `start` are now at `threads`, and each has a run by itself. -/
structure Apart (send : String → Except Fault (Fin n)) (keys : Nat → Set String)
    (start threads : Threads .single σ S V α n) (solos : List (Solo σ S V α n)) : Prop where
  sends : threads.store.SendsBy send
  length : threads.courses.length = start.courses.length
  length_solos : solos.length = start.courses.length
  follows : ∀ {t : Nat} {first now : S × Process .single n S V α} {solo : Solo σ S V α n},
    start.courses[t]? = some first → threads.courses[t]? = some now → solos[t]? = some solo →
      solo.Follows send (keys t) (.root t) start.store first threads.store now
  others : ∀ i, (threads.store.table i).AgreesOn (start.unclaimed keys) (start.store.table i)
  tally : ∀ i, (threads.store.shard i).tally =
    (start.store.shard i).tally.plus (solos.map fun solo => solo.counts i).sum

/-- Threads at their start, on a store at rest, each about its keys only. -/
structure Separate (start : Threads .single σ S V α n) (send : String → Except Fault (Fin n))
    (keys : Nat → Set String) : Prop where
  rest : start.store.AtRest
  sends : start.store.SendsBy send
  disjoint : Pairwise (Function.onFun Disjoint keys)
  keeps : ∀ {t : Nat} {first : S × Process .single n S V α}, start.courses[t]? = some first →
    first.2.Keeps .idle .idle
  mirrors : ∀ {t : Nat} {first : S × Process .single n S V α}, start.courses[t]? = some first →
    Process.Mirrors (keys t) none first.2 first.2

end Threads

/-- A table under whose lock a thread is stays as it is while another thread makes a step. -/
theorem Threads.Orderly.table_of_step? {threads : Threads .single σ S V α n}
    {standing : Nat → Standing n} (h : threads.Orderly standing) {t u : Nat} {own own' : S}
    {course course' : Process .single n S V α} {store' : Store σ V n}
    (hcourse : threads.courses[t]? = some (own, course))
    (hstep : course.step? (.root t) threads.store own = some (course', store', own')) (hne : u ≠ t)
    {i : Fin n} (hheld : (threads.store.shard i).lock.HeldBy (.root u)) :
    store'.table i = threads.store.table i := by
  obtain ⟨ht, -⟩ := List.getElem?_eq_some_iff.mp hcourse
  obtain rfl | ⟨β, action, hupcoming, rfl⟩ := Process.store_of_step? hstep
  · rfl
  · obtain ⟨inner, inner', outer, hstanding, hallows⟩ := (h.keeps hcourse).exists_allows hupcoming
    have hshows := h.shows ht
    rw [hstanding] at hshows
    cases hallows with
    | put j table =>
      have hwriter := (hshows.writer j).mpr List.mem_cons_self
      have hji : j ≠ i := by
        rintro rfl
        exact hne (ThreadId.root_inj.mp (h.eq_of_heldBy hwriter hheld))
      exact Store.table_modify_ne _ hji _
    | _ => exact Action.table_perform _ _ _ id i

/-- What a thread by itself is at, and that nobody else is there. -/
theorem Solo.Follows.exists_keeps {solo : Solo σ S V α n} {me : ThreadId}
    {start shared : Store σ V n} {keys : Set String} {first now : S × Process .single n S V α}
    (h : solo.Follows send keys me start first shared now) (hrest : start.AtRest)
    (hkeeps : first.2.Keeps .idle .idle) :
    ∃ standing, solo.course.Keeps standing .idle ∧ solo.store.Shows me standing ∧
      solo.store.Alone me := by
  obtain ⟨standing, hkeeps', hshows, halone, -⟩ :=
    hkeeps.reaches_inside (Store.inside_nil_iff.mpr hrest) h.reaches
  rw [Standing.under_nil] at hshows
  exact ⟨standing, hkeeps', hshows, halone⟩

/-- What others do makes no difference to a thread. -/
theorem Solo.Follows.frame {solo : Solo σ S V α n} {me : ThreadId}
    {start shared shared' : Store σ V n} {keys : Set String}
    {first now : S × Process .single n S V α}
    (h : solo.Follows send keys me start first shared now)
    (htables : ∀ i, (shared'.table i).AgreesOn keys (shared.table i))
    (hheld : ∀ i, (shared.shard i).lock.HeldBy me →
      shared'.table i = shared.table i ∧ (shared'.shard i).lock.HeldBy me) :
    solo.Follows send keys me start first shared' now :=
  { h with
    tables := fun i => (htables i).trans (h.tables i)
    reading := fun i table hseen => by
      obtain ⟨hread, hlock⟩ := h.reading i table hseen
      exact ⟨(hheld i hlock).1.trans hread, (hheld i hlock).2⟩ }

/-- Running a course comes to what running the rest of it comes to. -/
theorem Process.Reaches.run_eq {me : ThreadId} {p p' : Process .single n S V α}
    {store store' : Store σ V n} {own own' : S} (h : Reaches me p store own p' store' own') :
    p.run me store own = p'.run me store' own' := by
  induction h with
  | refl => rfl
  | step _ hstep ih => exact ih.trans (run_step? hstep)

/-- Courses that have ended run to where they are. -/
theorem Process.eq_of_run_eq {me : ThreadId} {p q : Process .single n S V α}
    {store store' : Store σ V n} {own own' : S} (hp : p.ended?.isSome) (hq : q.ended?.isSome)
    (h : p.run me store own = q.run me store' own') : p = q ∧ store = store' ∧ own = own' := by
  obtain ⟨result, hp⟩ := Option.isSome_iff_exists.mp hp
  obtain ⟨result', hq⟩ := Option.isSome_iff_exists.mp hq
  obtain ⟨value, -, rfl⟩ | ⟨fault, -, rfl⟩ := eq_of_ended? hp <;>
    obtain ⟨value', -, rfl⟩ | ⟨fault', -, rfl⟩ := eq_of_ended? hq <;>
    cases h <;> exact ⟨rfl, rfl, rfl⟩

/-- **A thread that has ended is where it comes to alone**, on the store that it started on. -/
theorem Solo.Follows.run_eq_of_ended {solo : Solo σ S V α n} {me : ThreadId}
    {start shared : Store σ V n} {keys : Set String} {first now : S × Process .single n S V α}
    (h : solo.Follows send keys me start first shared now) (hended : now.2.ended?.isSome) :
    first.2.run me start first.1 = now.2.run me solo.store now.1 := by
  obtain ⟨result, hresult⟩ := Option.isSome_iff_exists.mp hended
  have hreaches := h.reaches
  rw [(h.mirrors.eq_of_ended? hresult).1] at hreaches
  exact hreaches.run_eq

/-- So it has ended at the same, whatever the others have done. -/
theorem Solo.Follows.eq_of_ended {solo solo' : Solo σ S V α n} {me : ThreadId}
    {start shared shared' : Store σ V n} {keys : Set String}
    {first now now' : S × Process .single n S V α}
    (h : solo.Follows send keys me start first shared now)
    (h' : solo'.Follows send keys me start first shared' now') (hended : now.2.ended?.isSome)
    (hended' : now'.2.ended?.isSome) : now = now' ∧ solo.store = solo'.store := by
  obtain ⟨hcourse, hstore, hown⟩ := Process.eq_of_run_eq hended hended'
    ((h.run_eq_of_ended hended).symm.trans (h'.run_eq_of_ended hended'))
  exact ⟨Prod.ext hown hcourse, hstore⟩

namespace Threads

variable {start threads threads' : Threads .single σ S V α n} {solos solos' : List (Solo σ S V α n)}
  {standing : Nat → Standing n} {at' : Standing n} {t : Nat}

/-- Before the first step. -/
theorem Separate.apart (h : start.Separate send keys) :
    Apart send keys start start
      (start.courses.map fun first => ⟨first.2, start.store, none, fun _ => 0⟩) where
  sends := h.sends
  length := rfl
  length_solos := List.length_map ..
  follows {t first now solo} hfirst hnow hsolo := by
    obtain rfl : first = now := Option.some.inj (hfirst.symm.trans hnow)
    rw [List.getElem?_map, hfirst] at hsolo
    cases hsolo
    exact ⟨h.mirrors hfirst, .refl, h.sends, fun i => .refl _ _, nofun, fun i => rfl⟩
  others i := .refl _ _
  tally i := by
    rw [List.sum_eq_zero fun events hmem => ?_]
    · rfl
    · obtain ⟨solo, hmem', rfl⟩ := List.mem_map.mp hmem
      obtain ⟨first, -, rfl⟩ := List.mem_map.mp hmem'
      rfl

/-- **Whatever step a thread takes, it takes by itself, too.** -/
theorem Apart.step (h : Apart send keys start threads solos) (hstart : start.Separate send keys)
    (horderly : threads.Orderly standing) (hstep : threads.step? t = some threads')
    (horderly' : threads'.Orderly (Function.update standing t at')) :
    ∃ solos', Apart send keys start threads' solos' := by
  obtain ⟨own, course, own', course', store', hcourse, hmoved, rfl⟩ := exists_of_step? hstep
  obtain ⟨ht, -⟩ := List.getElem?_eq_some_iff.mp hcourse
  obtain ⟨first, hfirst⟩ : ∃ first, start.courses[t]? = some first :=
    ⟨_, List.getElem?_eq_getElem (h.length ▸ ht)⟩
  obtain ⟨solo, hsolo⟩ : ∃ solo, solos[t]? = some solo :=
    ⟨_, List.getElem?_eq_getElem (h.length_solos ▸ h.length ▸ ht)⟩
  have hfollows := h.follows hfirst hcourse hsolo
  obtain ⟨standing', hkeeps', hshows', halone⟩ :=
    hfollows.exists_keeps hstart.rest (hstart.keeps hfirst)
  obtain ⟨soloCourse, soloStore, seen, hsoloStep, hmirrors, hreading, hbeside⟩ :=
    hfollows.mirrors.exists_step?
      (fun β action hupcoming => hfollows.mirrors.ready (horderly.keeps hcourse) (horderly.shows ht)
        hkeeps' hshows' halone hupcoming)
      h.sends hfollows.sends hfollows.tables hfollows.reading hmoved
  choose events htally hsoloTally using fun i => (hbeside i).tally
  have hothers (i : Fin n) : (store'.table i).AgreesOn (keys t)ᶜ (threads.store.table i) :=
    (hbeside i).others
  refine ⟨solos.set t ⟨soloCourse, soloStore, seen, fun i => solo.counts i + events i⟩,
    h.sends.step? hmoved, ?_, ?_, fun {u first' now solo'} hfirst' hnow hsolo' => ?_, fun i => ?_,
    fun i => ?_⟩
  · rw [List.length_set, h.length]
  · rw [List.length_set, h.length_solos]
  · by_cases hut : u = t
    · subst hut
      rw [List.getElem?_set_self ht] at hnow
      rw [List.getElem?_set_self (h.length_solos ▸ h.length ▸ ht)] at hsolo'
      cases hnow
      cases hsolo'
      obtain rfl : first = first' := Option.some.inj (hfirst.symm.trans hfirst')
      refine ⟨hmirrors, .step hfollows.reaches hsoloStep, hfollows.sends.step? hsoloStep,
        fun i => (hbeside i).agree, hreading, fun i => ?_⟩
      rw [hsoloTally, hfollows.tally, Tally.plus_add]
    · rw [List.getElem?_set_ne (Ne.symm hut)] at hnow hsolo'
      obtain ⟨hu, -⟩ := List.getElem?_eq_some_iff.mp hnow
      refine (h.follows hfirst' hnow hsolo').frame (fun i => ?_) fun i hheld => ⟨?_, ?_⟩
      · exact (hothers i).mono (Set.disjoint_left.mp (hstart.disjoint hut))
      · exact horderly.table_of_step? hcourse hmoved hut hheld
      · exact (horderly.lock_iff_of_eq horderly' hu (by rwa [List.length_set])
          (Function.update_of_ne hut ..) i).1.mpr hheld
  · refine ((hothers i).mono fun key hkey => ?_).trans (h.others i)
    exact hkey t (h.length ▸ ht)
  · obtain ⟨others, hsum, hset⟩ := exists_sum_set (fun solo : Solo σ S V α n => solo.counts i) hsolo
    rw [htally, h.tally, hsum, hset, ← Tally.plus_add, add_right_comm]

/-- **Every interleaving has a run of each thread by itself beside it.** -/
theorem Separate.exists_apart (hstart : start.Separate send keys)
    (horderly : start.Orderly standing) (h : start.Reaches threads) :
    ∃ solos, Apart send keys start threads solos := by
  induction h with
  | refl => exact ⟨_, hstart.apart⟩
  | step t hreaches hstep ih =>
    obtain ⟨solos, hapart⟩ := ih
    obtain ⟨standing', horderly'⟩ := horderly.exists_of_reaches hreaches
    obtain ⟨at', horderly''⟩ := horderly'.step hstep
    exact hapart.step hstart horderly' hstep horderly''

/-- Each of the threads, once all have ended, is where it comes to alone. -/
theorem Apart.exists_run_eq_of_ended (h : Apart send keys start threads solos)
    (hended : threads.Ended) {first : S × Process .single n S V α}
    (hfirst : start.courses[t]? = some first) :
    ∃ now last, threads.courses[t]? = some now ∧ now.2.ended?.isSome ∧
      first.2.run (.root t) start.store first.1 = now.2.run (.root t) last now.1 := by
  obtain ⟨ht, -⟩ := List.getElem?_eq_some_iff.mp hfirst
  have hnow := List.getElem?_eq_getElem (h.length.symm ▸ ht)
  have hfollows := h.follows hfirst hnow (List.getElem?_eq_getElem (h.length_solos.symm ▸ ht))
  have hresult := hended _ (List.mem_of_getElem? hnow)
  exact ⟨_, _, hnow, hresult, hfollows.run_eq_of_ended hresult⟩

/-- However they are interleaved, it is at the same. -/
theorem Apart.exists_follows_of_ended (h : Apart send keys start threads solos)
    (h' : Apart send keys start threads' solos') (hended : threads.Ended) (hended' : threads'.Ended)
    (ht : t < start.courses.length) :
    ∃ now solo solo', threads.courses[t]? = some now ∧ threads'.courses[t]? = some now ∧
      solos[t]? = some solo ∧ solos'[t]? = some solo' ∧ solo.store = solo'.store ∧
      solo.Follows send (keys t) (.root t) start.store start.courses[t] threads.store now ∧
      solo'.Follows send (keys t) (.root t) start.store start.courses[t] threads'.store now := by
  have hfirst := List.getElem?_eq_getElem ht
  have hnow := List.getElem?_eq_getElem (h.length.symm ▸ ht)
  have hnow' := List.getElem?_eq_getElem (h'.length.symm ▸ ht)
  have hsolo := List.getElem?_eq_getElem (h.length_solos.symm ▸ ht)
  have hsolo' := List.getElem?_eq_getElem (h'.length_solos.symm ▸ ht)
  have hfollows := h.follows hfirst hnow hsolo
  have hfollows' := h'.follows hfirst hnow' hsolo'
  obtain ⟨heq, hstore⟩ := hfollows.eq_of_ended hfollows' (hended _ (List.mem_of_getElem? hnow))
    (hended' _ (List.mem_of_getElem? hnow'))
  exact ⟨_, _, _, hnow, heq ▸ hnow', hsolo, hsolo', hstore, hfollows, heq ▸ hfollows'⟩

/-- **Threads that have ended are known by what each of them does by itself.** -/
theorem Apart.eq_of_ended (h : Apart send keys start threads solos)
    (h' : Apart send keys start threads' solos') (hended : threads.Ended)
    (hended' : threads'.Ended) :
    threads.courses = threads'.courses ∧ ∀ i, threads.store.table i = threads'.store.table i ∧
      (threads.store.shard i).tally = (threads'.store.shard i).tally := by
  refine ⟨List.ext_getElem? fun t => ?_, fun i => ⟨Table.ext_getElem? fun key => ?_, ?_⟩⟩
  · by_cases ht : t < start.courses.length
    · obtain ⟨now, -, -, hnow, hnow', -⟩ := h.exists_follows_of_ended h' hended hended' ht
      rw [hnow, hnow']
    · rw [List.getElem?_eq_none (by rw [h.length]; omega),
        List.getElem?_eq_none (by rw [h'.length]; omega)]
  · by_cases hkey : key ∈ start.unclaimed keys
    · exact (h.others i key hkey).trans (h'.others i key hkey).symm
    · obtain ⟨t, ht, hmem⟩ : ∃ t < start.courses.length, key ∈ keys t := by
        simpa only [unclaimed, Set.mem_ofPred_eq, not_forall, not_not, exists_prop] using hkey
      obtain ⟨now, solo, solo', -, -, -, -, hstore, hfollows, hfollows'⟩ :=
        h.exists_follows_of_ended h' hended hended' ht
      rw [hfollows.tables i key hmem, hfollows'.tables i key hmem, hstore]
  · rw [h.tally, h'.tally]
    refine Tally.plus_sum_congr (List.forall₂_iff_get.mpr ⟨?_, fun t ht _ => ?_⟩)
    · rw [List.length_map, List.length_map, h.length_solos, h'.length_solos]
    · rw [List.length_map, h.length_solos] at ht
      obtain ⟨now, solo, solo', -, -, hsolo, hsolo', hstore, hfollows, hfollows'⟩ :=
        h.exists_follows_of_ended h' hended hended' ht
      obtain ⟨_, hcounts⟩ := List.getElem?_eq_some_iff.mp hsolo
      obtain ⟨_, hcounts'⟩ := List.getElem?_eq_some_iff.mp hsolo'
      simp only [List.get_eq_getElem, List.getElem_map, hcounts, hcounts']
      rw [← hfollows.tally, ← hfollows'.tally, hstore]

end Threads

end ShardStore
