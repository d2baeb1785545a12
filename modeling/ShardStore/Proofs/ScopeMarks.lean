import Mathlib.Data.List.Count
import ShardStore.Proofs.Courses.LiveScopes
import ShardStore.Proofs.Linearizability

/-!
# Marks of different threads

Several threads may run callbacks on one shard at the same time, under its shared lock, and leave
them in any order, by returning or by unwinding. Whenever one leaves, marks of the others move.
Nothing rests on where a mark is: as a multiset the marks of a shard are the live scopes there
(`Store.MarksExactly`), a thread that leaves takes back one mark of its own and none of anybody
else, and it is refused just where it has a live scope.

This is so in whatever order scopes on a shard are opened and closed, by whichever threads
(`Store.WithScopes.marksExactly`), and of all shards while threads act in turns, where the live
scopes are read off what is left of their courses (`Threads.KeepsMarksApart`).
-/

namespace ShardStore

variable {σ S V α : Type} {mode : Threading} {n : Nat}

/-! ## One shard -/

namespace Store

variable {store : Store σ V n} {i : Fin n} {scopes : List ThreadId}

/-- What threads make of a store, where nobody had marked shard `i`: they open scopes on it, close
any scope that is live, and do anything else. The list has the thread of each scope that is live. -/
inductive WithScopes (i : Fin n) : List ThreadId → Store σ V n → Prop where
  | start {store : Store σ V n} (h : (store.shard i).markers = []) : WithScopes i [] store
  | enter {scopes : List ThreadId} {store : Store σ V n} (thread : ThreadId)
      (h : WithScopes i scopes store) :
      WithScopes i (thread :: scopes) ((Action.mark i : Action n V Unit).perform thread store).2
  | leave {before after : List ThreadId} {thread : ThreadId} {store : Store σ V n}
      (h : WithScopes i (before ++ thread :: after) store) :
      WithScopes i (before ++ after) ((Action.unmark i : Action n V Unit).perform thread store).2
  | other {β : Type} {scopes : List ThreadId} {store : Store σ V n} (thread : ThreadId)
      (action : Action n V β) (hopens : i ∉ action.opens) (hcloses : i ∉ action.closes)
      (h : WithScopes i scopes store) : WithScopes i scopes (action.perform thread store).2

/-- The marks of a shard are the live scopes there, of the given threads. -/
structure MarksExactly (store : Store σ V n) (i : Fin n) (scopes : List ThreadId) : Prop where
  /-- Each thread is marked as often as it has live scopes. -/
  marks : (store.shard i).markers.Perm scopes
  /-- A thread is refused if it has a live scope, and not otherwise. -/
  refused : ∀ thread, (Action.check i : Action n V Unit).perform thread store =
    if thread ∈ scopes then (.unwound .reentrant, store) else (.returned (), store)
  /-- A thread that enters has one scope more. -/
  entered : ∀ thread,
    (((Action.mark i : Action n V Unit).perform thread store).2.shard i).markers.Perm
      (thread :: scopes)
  /-- A thread that leaves has one scope less. -/
  left : ∀ thread,
    (((Action.unmark i : Action n V Unit).perform thread store).2.shard i).markers.Perm
      (scopes.erase thread)
  /-- It leaves the marks of the others. -/
  others : ∀ thread other, other ≠ thread →
    (((Action.unmark i : Action n V Unit).perform thread store).2.shard i).markers.count other =
      (store.shard i).markers.count other

/-- The marks after one is taken back. -/
theorem markers_unmark_perm (store : Store σ V n) (i : Fin n) (thread : ThreadId) :
    (((Action.unmark i : Action n V Unit).perform thread store).2.shard i).markers.Perm
      ((store.shard i).markers.erase thread) := by
  rw [Action.perform, shard_modify_self]
  exact Markers.leave_perm _ thread

/-- The marks after one is set. -/
theorem markers_mark_perm (store : Store σ V n) (i : Fin n) (thread : ThreadId) :
    (((Action.mark i : Action n V Unit).perform thread store).2.shard i).markers.Perm
      (thread :: (store.shard i).markers) := by
  rw [Action.perform, shard_modify_self]
  exact List.perm_append_singleton thread _

/-- Nothing matters but how often each thread is marked. -/
theorem marksExactly_of_perm (h : (store.shard i).markers.Perm scopes) :
    store.MarksExactly i scopes where
  marks := h
  refused thread := by
    rw [Action.perform]
    simp only [h.mem_iff]
  entered thread := (store.markers_mark_perm i thread).trans (h.cons thread)
  left thread := (store.markers_unmark_perm i thread).trans (h.erase thread)
  others thread other hne := by
    rw [(store.markers_unmark_perm i thread).count_eq, List.count_erase_of_ne hne]

/-- **Whoever enters and leaves in whichever order**, the marks of a shard are the live scopes. -/
theorem WithScopes.marksExactly (h : store.WithScopes i scopes) : store.MarksExactly i scopes := by
  induction h with
  | start hnone => exact marksExactly_of_perm (hnone ▸ .refl [])
  | enter thread _ ih => exact marksExactly_of_perm (ih.entered thread)
  | @leave before after thread store _ ih =>
    refine marksExactly_of_perm ((ih.left thread).trans ?_)
    have hperm : (before ++ thread :: after).Perm (thread :: (before ++ after)) := List.perm_middle
    have herase := hperm.erase thread
    rwa [List.erase_cons_head] at herase
  | other thread action hopens hcloses _ ih =>
    refine marksExactly_of_perm ?_
    rw [action.markers_perform hopens hcloses]
    exact ih.marks

end Store

/-! ## Scopes on several shards -/

/-- The threads of those scopes that are on one shard. -/
def threadsOn (i : Fin n) (scopes : List (Fin n × ThreadId)) : List ThreadId :=
  (scopes.filter (·.1 = i)).map Prod.snd

theorem mem_threadsOn {i : Fin n} {scopes : List (Fin n × ThreadId)} {thread : ThreadId} :
    thread ∈ threadsOn i scopes ↔ (i, thread) ∈ scopes := by
  simp [threadsOn]

theorem threadsOn_perm (i : Fin n) {scopes scopes' : List (Fin n × ThreadId)}
    (h : scopes.Perm scopes') : (threadsOn i scopes).Perm (threadsOn i scopes') :=
  (h.filter _).map _

theorem threadsOn_append (i : Fin n) (scopes scopes' : List (Fin n × ThreadId)) :
    threadsOn i (scopes ++ scopes') = threadsOn i scopes ++ threadsOn i scopes' := by
  rw [threadsOn, List.filter_append, List.map_append, threadsOn, threadsOn]

/-- Scopes on other shards. -/
theorem threadsOn_map_of_not_mem {i : Fin n} {shards : List (Fin n)} (h : i ∉ shards)
    (thread : ThreadId) : threadsOn i (shards.map (·, thread)) = [] := by
  refine List.eq_nil_iff_forall_not_mem.mpr fun other hother => h ?_
  obtain ⟨j, hj, heq⟩ := List.mem_map.mp (mem_threadsOn.mp hother)
  cases heq
  exact hj

/-- What becomes of the scopes on a shard when a thread performs an action. -/
theorem Store.exists_withScopes_of_perform {β : Type} {store : Store σ V n} {i : Fin n}
    {thread : ThreadId} {live live' : List ThreadId} {action : Action n V β}
    (h : ∃ scopes, store.WithScopes i scopes ∧ scopes.Perm live)
    (hperm : (live' ++ threadsOn i (action.closes.map (·, thread))).Perm
      (live ++ threadsOn i (action.opens.map (·, thread)))) :
    ∃ scopes, (action.perform thread store).2.WithScopes i scopes ∧ scopes.Perm live' := by
  obtain ⟨scopes, hscopes, hlive⟩ := h
  by_cases hopens : i ∈ action.opens
  · cases action with
    | mark j =>
      obtain rfl : i = j := List.mem_singleton.mp hopens
      have hmore : live'.Perm (live ++ [thread]) := by
        simpa [threadsOn, Action.opens, Action.closes] using hperm
      refine ⟨thread :: scopes, .enter thread hscopes, (hlive.cons thread).trans ?_⟩
      exact (hmore.trans (List.perm_append_singleton thread live)).symm
    | _ => cases hopens
  by_cases hcloses : i ∈ action.closes
  · cases action with
    | unmark j =>
      obtain rfl : i = j := List.mem_singleton.mp hcloses
      have hless : (live' ++ [thread]).Perm live := by
        simpa [threadsOn, Action.opens, Action.closes] using hperm
      have hrest : (thread :: live').Perm live :=
        (List.perm_append_singleton thread live').symm.trans hless
      -- The scope that is closed is one of those that are live.
      obtain ⟨before, after, rfl⟩ :=
        List.append_of_mem (hlive.mem_iff.mpr (hrest.mem_iff.mp List.mem_cons_self))
      refine ⟨before ++ after, .leave hscopes, ?_⟩
      exact ((List.perm_middle.symm.trans hlive).trans hrest.symm).cons_inv
    | _ => cases hcloses
  · refine ⟨scopes, .other thread action hopens hcloses hscopes, hlive.trans ?_⟩
    rw [threadsOn_map_of_not_mem hopens, threadsOn_map_of_not_mem hcloses, List.append_nil,
      List.append_nil] at hperm
    exact hperm.symm

/-! ## Threads in turns -/

namespace Threads

variable {threads threads' : Threads mode σ S V α n} {i : Fin n} {thread : ThreadId} {t : Nat}

/-- The live scopes of all threads, with the shards on which they are. -/
def scopes (threads : Threads mode σ S V α n) : List (Fin n × ThreadId) :=
  (threads.courses.mapIdx fun t course => course.2.scopes (.root t)).flatten

/-- The threads of the live scopes on one shard. -/
def scopesOn (threads : Threads mode σ S V α n) (i : Fin n) : List ThreadId :=
  threadsOn i threads.scopes

/-- A live scope is one of the course that its thread is of. -/
theorem mem_scopes_iff : (i, thread) ∈ threads.scopes ↔
    ∃ own course, threads.courses[thread.origin]? = some (own, course) ∧
      (i, thread) ∈ course.scopes (.root thread.origin) := by
  rw [scopes, List.mem_flatten]
  constructor
  · rintro ⟨scopes, hscopes, hmem⟩
    obtain ⟨t, ht, rfl⟩ := List.mem_mapIdx.mp hscopes
    -- All scopes of that course are of threads with its origin.
    obtain rfl : thread.origin = t := Process.origin_of_mem_scopes hmem
    exact ⟨_, _, List.getElem?_eq_getElem ht, hmem⟩
  · rintro ⟨own, course, hcourse, hmem⟩
    obtain ⟨ht, hget⟩ := List.getElem?_eq_some_iff.mp hcourse
    exact ⟨_, List.mem_mapIdx.mpr ⟨thread.origin, ht, by rw [hget]⟩, hmem⟩

/-- Scopes are opened and closed as courses do, and every shard has come about by just the scopes
that are live. -/
structure Marked (threads : Threads mode σ S V α n) : Prop where
  bracketed : ∀ {t : Nat} {own : S} {course : Process mode n S V α},
    threads.courses[t]? = some (own, course) → course.Bracketed
  opened : ∀ i, ∃ scopes, threads.store.WithScopes i scopes ∧ scopes.Perm (threads.scopesOn i)

/-- At rest nobody is in a scope. -/
theorem marked_of_begins (hrest : threads.store.AtRest)
    (hbegins : ∀ course ∈ threads.courses, course.2.Begins) : threads.Marked where
  bracketed hcourse := (hbegins _ (List.mem_of_getElem? hcourse)).tidy.bracketed
  opened i := by
    have hnone : threads.scopes = [] := by
      refine List.eq_nil_iff_forall_not_mem.mpr fun (i, thread) hscope => ?_
      obtain ⟨own, course, hcourse, hmem⟩ := mem_scopes_iff.mp hscope
      rw [(hbegins _ (List.mem_of_getElem? hcourse)).tidy.scopes_eq] at hmem
      cases hmem
    refine ⟨[], .start (hrest i).2, ?_⟩
    rw [scopesOn, hnone]
    exact .refl []

/-- The scopes of all threads change as those of the one that makes a step. -/
theorem scopes_perm_of_set {own own' : S} {course course' : Process mode n S V α}
    (hcourse : threads.courses[t]? = some (own, course)) {closed opened : List (Fin n × ThreadId)}
    (hperm : (course'.scopes (.root t) ++ closed).Perm (course.scopes (.root t) ++ opened))
    (store : Store σ V n) :
    (scopes { store, courses := threads.courses.set t (own', course') } ++ closed).Perm
      (threads.scopes ++ opened) := by
  refine List.perm_iff_count.mpr fun scope => ?_
  have hlisted : (threads.courses.mapIdx fun t course => course.2.scopes (.root t))[t]? =
      some (course.scopes (.root t)) := by
    rw [List.getElem?_mapIdx, hcourse, Option.map_some]
  obtain ⟨others, hbefore, hafter⟩ := exists_sum_set (List.count scope) hlisted
  have hcount := hperm.count_eq scope
  rw [List.count_append, List.count_append] at hcount ⊢
  rw [scopes, scopes, List.count_flatten, List.count_flatten, List.mapIdx_set, hbefore, hafter]
  dsimp only
  omega

namespace Marked

/-- A step opens and closes scopes of the thread that makes it. -/
theorem exists_scopes_perm (h : threads.Marked) (hstep : threads.step? t = some threads') :
    threads'.store = threads.store ∧ threads'.scopes.Perm threads.scopes ∨
      ∃ (β : Type) (action : Action n V β) (thread : ThreadId), thread.origin = t ∧
        threads'.store = (action.perform thread threads.store).2 ∧
        (threads'.scopes ++ action.closes.map (·, thread)).Perm
          (threads.scopes ++ action.opens.map (·, thread)) := by
  obtain ⟨own, course, own', course', store', hcourse, hmoved, rfl⟩ := exists_of_step? hstep
  rcases (h.bracketed hcourse).scopes_step? hmoved with
    ⟨rfl, hsame⟩ | ⟨_, action, thread, horigin, hperform, hperm⟩
  · refine .inl ⟨rfl, ?_⟩
    have hperm : (scopes ⟨threads.store, threads.courses.set t (own', course')⟩ ++ []).Perm
        (threads.scopes ++ []) := scopes_perm_of_set hcourse (by rw [hsame]) threads.store
    rwa [List.append_nil, List.append_nil] at hperm
  · exact .inr ⟨_, action, thread, horigin, hperform, scopes_perm_of_set hcourse hperm store'⟩

theorem step (h : threads.Marked) (hstep : threads.step? t = some threads') : threads'.Marked where
  bracketed {u own₁ course₁} hcourse₁ := by
    obtain ⟨own, course, own', course', store', hcourse, hmoved, rfl⟩ := exists_of_step? hstep
    obtain ⟨ht, -⟩ := List.getElem?_eq_some_iff.mp hcourse
    by_cases hut : u = t
    · subst hut
      rw [List.getElem?_set_self ht] at hcourse₁
      cases hcourse₁
      exact (h.bracketed hcourse).step? hmoved
    · rw [List.getElem?_set_ne (Ne.symm hut)] at hcourse₁
      exact h.bracketed hcourse₁
  opened i := by
    rcases h.exists_scopes_perm hstep with ⟨hstore, hsame⟩ | ⟨_, action, thread, -, hstore, hperm⟩
    · obtain ⟨scopes, hscopes, hlive⟩ := h.opened i
      exact ⟨scopes, hstore ▸ hscopes, hlive.trans (threadsOn_perm i hsame).symm⟩
    · rw [hstore]
      refine Store.exists_withScopes_of_perform (h.opened i) ?_
      rw [scopesOn, scopesOn, ← threadsOn_append, ← threadsOn_append]
      exact threadsOn_perm i hperm

theorem reaches (h : threads.Marked) (hreaches : threads.Reaches threads') : threads'.Marked := by
  induction hreaches with
  | refl => exact h
  | step t _ hstep ih => exact ih.step hstep

/-- The marks of a shard are the live scopes there. -/
theorem marksExactly (h : threads.Marked) (i : Fin n) :
    threads.store.MarksExactly i (threads.scopesOn i) := by
  obtain ⟨scopes, hscopes, hlive⟩ := h.opened i
  exact Store.marksExactly_of_perm (hscopes.marksExactly.marks.trans hlive)

end Marked

/-- Marks of different threads do not disturb each other. -/
structure KeepsMarksApart (threads : Threads mode σ S V α n) : Prop where
  /-- Every shard has come about by scopes that were opened and closed, in some order; those that
  are live are the live scopes of the threads. -/
  opened : ∀ i, ∃ scopes, threads.store.WithScopes i scopes ∧ scopes.Perm (threads.scopesOn i)
  /-- A thread has live scopes as is told by what is left of the course that it is of. -/
  live : ∀ i thread, thread ∈ threads.scopesOn i ↔
    ∃ own course, threads.courses[thread.origin]? = some (own, course) ∧
      (i, thread) ∈ course.scopes (.root thread.origin)
  /-- The marks of each shard are the live scopes there. -/
  marks : ∀ i, threads.store.MarksExactly i (threads.scopesOn i)
  /-- A step of one thread leaves the marks of the others. -/
  others : ∀ t threads', threads.step? t = some threads' → ∀ i thread, thread.origin ≠ t →
    (threads'.store.shard i).markers.count thread = (threads.store.shard i).markers.count thread
  /-- A thread that has ended, by returning or by unwinding, has left no mark. -/
  ended : ∀ t own course, threads.courses[t]? = some (own, course) → course.ended?.isSome →
    ∀ i thread, thread.origin = t → thread ∉ (threads.store.shard i).markers

theorem Marked.keepsMarksApart (h : threads.Marked) : threads.KeepsMarksApart where
  opened := h.opened
  live i thread := mem_threadsOn.trans mem_scopes_iff
  marks := h.marksExactly
  others t threads' hstep i thread hne := by
    rw [((h.step hstep).marksExactly i).marks.count_eq, (h.marksExactly i).marks.count_eq]
    rcases h.exists_scopes_perm hstep with ⟨-, hsame⟩ | ⟨_, action, acting, horigin, -, hperm⟩
    · exact (threadsOn_perm i hsame).count_eq thread
    · -- What was opened or closed is of another thread.
      have hnone (shards : List (Fin n)) :
          (threadsOn i (shards.map (·, acting))).count thread = 0 := by
        refine List.count_eq_zero.mpr fun hmem => hne ?_
        obtain ⟨j, -, heq⟩ := List.mem_map.mp (mem_threadsOn.mp hmem)
        cases heq
        exact horigin
      have hcount := (threadsOn_perm i hperm).count_eq thread
      rwa [threadsOn_append, threadsOn_append, List.count_append, List.count_append, hnone, hnone]
        at hcount
  ended t own course hcourse hended i thread horigin hmark := by
    obtain ⟨result, hresult⟩ := Option.isSome_iff_exists.mp hended
    have hlive := mem_threadsOn.mp ((h.marksExactly i).marks.mem_iff.mp hmark)
    obtain ⟨own', course', hcourse', hmem⟩ := mem_scopes_iff.mp hlive
    rw [horigin, hcourse] at hcourse'
    cases hcourse'
    rw [Process.scopes_of_ended? hresult] at hmem
    cases hmem

/-! ## The statement -/

/-- **Marks of different threads do not disturb each other.** In whichever order any threads open
scopes on a shard and close those that are live, the marks of the shard are the live scopes, however
they have moved: a thread that leaves takes back one mark of its own and none of anybody else, and a
thread is refused just if it has a live scope. So it is with every shard, and at every point, while
threads act in turns on a store that was at rest, in whatever way their callbacks end. -/
theorem marks_of_threads_apart :
    (∀ (i : Fin n) (scopes : List ThreadId) (store : Store σ V n), store.WithScopes i scopes →
      store.MarksExactly i scopes) ∧
    ∀ start threads : Threads mode σ S V α n, start.store.AtRest →
      (∀ course ∈ start.courses, course.2.Begins) → start.Reaches threads →
      threads.KeepsMarksApart :=
  ⟨fun _ _ _ => Store.WithScopes.marksExactly, fun _ _ hrest hbegins hreaches =>
    ((marked_of_begins hrest hbegins).reaches hreaches).keepsMarksApart⟩

/-- Three threads run callbacks on the only shard at the same time. The first one's callback
unwinds, and the mark of the last one takes the place of the mark that is taken back. The same marks
come about if the three enter one after another and the first one leaves. -/
theorem marks_of_threads_apart_three :
    let config : Config Unit := { shardCount := 1 }
    let visit : Program .single Unit Nat Unit → Program .single Unit Nat Unit := fun callback => do
      let _ ← Program.forEach fun _ _ => callback
      return ()
    ∃ store : Store Unit Nat config.shards, Store.ofConfig config = .ok store ∧ store.AtRest ∧
      let only : Fin config.shards := ⟨0, by decide⟩
      let start : Threads .single Unit Unit Nat Unit config.shards := .ofPrograms store
        [((), visit (.unwind (.callback "no"))), ((), visit (.done ())), ((), visit (.done ())),
          ((), Program.set "a" 1)]
      let inside := start.follow (List.replicate 8 3 ++ (List.replicate 5 [0, 1, 2]).flatten)
      let later := inside.follow [0, 0, 0]
      start.Reaches inside ∧ (inside.store.shard only).markers = [.root 0, .root 1, .root 2] ∧
      inside.KeepsMarksApart ∧ start.Reaches later ∧
      (later.store.shard only).markers = [.root 2, .root 1] ∧
      later.scopesOn only = [.root 1, .root 2] ∧ later.KeepsMarksApart ∧
      let enter (thread : ThreadId) (store : Store Unit Nat config.shards) :=
        ((Action.mark only : Action _ Nat Unit).perform thread store).2
      let three := enter (.root 2) (enter (.root 1) (enter (.root 0) store))
      let two := ((Action.unmark only : Action _ Nat Unit).perform (.root 0) three).2
      two.WithScopes only [.root 2, .root 1] ∧ two.MarksExactly only [.root 2, .root 1] := by
  intro config visit
  obtain ⟨store, hstore⟩ : ∃ store : Store Unit Nat config.shards,
      Store.ofConfig config = .ok store := ⟨_, rfl⟩
  have hrest := Store.atRest_of_ofConfig hstore
  refine ⟨store, hstore, hrest, ?_⟩
  intro only start inside later
  have hbegins : ∀ course ∈ start.courses, course.2.Begins := by
    intro course hcourse
    obtain ⟨program, -, rfl⟩ := List.mem_map.mp hcourse
    exact .program _
  have hinside : start.Reaches inside := reaches_follow start _
  have hlater : start.Reaches later := hinside.trans (reaches_follow inside _)
  obtain ⟨hshard, hthreads⟩ := @marks_of_threads_apart Unit Unit Nat Unit .single config.shards
  refine ⟨hinside, ?_, hthreads start inside hrest hbegins hinside, hlater, ?_, ?_,
    hthreads start later hrest hbegins hlater, ?_⟩
  · cases hstore
    decide +kernel
  · cases hstore
    decide +kernel
  · cases hstore
    decide +kernel
  · intro enter three two
    have hthree : three.WithScopes only [.root 2, .root 1, .root 0] :=
      .enter _ (.enter _ (.enter _ (.start (hrest only).2)))
    have hsplit : three.WithScopes only ([.root 2, .root 1] ++ .root 0 :: []) := hthree
    have htwo : two.WithScopes only [.root 2, .root 1] := .leave hsplit
    exact ⟨htwo, hshard only _ two htwo⟩

end Threads

end ShardStore
