import ShardStore.Proofs.Contents

/-!
# Live scopes

A scope is opened by the action that marks a shard for a callback and closed by the one that takes
the mark back, and it is live in between. `Process.scopes` reads off what is left of a course which
scopes are live, and in the names of which threads: while a course waits for a thread that it has
started, these include the scopes of that thread.

Nothing but the two actions opens or closes a scope. `Process.Bracketed` says so of a course, with a
case for each way to go on, and `Program.tidy_process` is the induction over programs. So a step of
a course performs an action in the name of some thread, and the live scopes change by what this
action opens and closes (`Process.Bracketed.scopes_step?`).
-/

namespace ShardStore

namespace Action

variable {σ V β : Type} {n : Nat} {me thread : ThreadId} {store store' : Store σ V n}

/-- The shard that the action marks for a callback. -/
def opens : Action n V β → List (Fin n)
  | .mark i => [i]
  | _ => []

/-- An action that unwinds opens and closes nothing. -/
theorem eq_nil_of_unwound {action : Action n V β} {fault : Fault}
    (h : action.perform me store = (.unwound fault, store')) :
    action.opens = [] ∧ action.closes = [] := by
  cases action with
  | mark i => cases h
  | unmark i => cases h
  | _ => exact ⟨rfl, rfl⟩

/-- An action that neither opens nor closes a scope on a shard leaves the marks there. -/
theorem markers_perform (action : Action n V β) {i : Fin n} (hopens : i ∉ action.opens)
    (hcloses : i ∉ action.closes) :
    ((action.perform me store).2.shard i).markers = (store.shard i).markers := by
  have hmodify (j : Fin n) {change : Shard V → Shard V}
      (hchange : ∀ shard, (change shard).markers = shard.markers) :
      ((store.modify j change).shard i).markers = (store.shard i).markers := by
    rw [Store.shard_modify]
    split
    · exact hchange _
    · rfl
  cases action with
  | route key => rw [shard_perform me (.route key) store nofun]
  | check j => rw [perform]; split <;> rfl
  | bump j counter => exact hmodify j fun _ => rfl
  | acquire j access =>
    rw [perform]
    split
    · exact hmodify j fun _ => rfl
    · rfl
  | release j access => exact hmodify j fun _ => rfl
  | mark j =>
    have hne : j ≠ i := fun heq => hopens (heq ▸ List.mem_cons_self)
    rw [perform, Store.shard_modify_ne _ hne]
  | unmark j =>
    have hne : j ≠ i := fun heq => hcloses (heq ▸ List.mem_cons_self)
    rw [perform, Store.shard_modify_ne _ hne]
  | load j => rfl
  | put j table => exact hmodify j fun _ => rfl
  | counted j counter => rfl

end Action

/-- An action that is allowed at a standing opens the scopes of the next one that are not closed. -/
theorem Standing.Allows.opens_eq {V β : Type} {n : Nat} {standing standing' : Standing n}
    {action : Action n V β} (h : standing.Allows action standing') :
    action.opens = standing'.calls := by
  cases h <;> rfl

namespace Process

variable {σ S V α β γ : Type} {mode : Threading} {n : Nat} {me : ThreadId}

/-- The scopes that are live in what is left of a course of thread `me`, each with the thread that
it is of. -/
def scopes (me : ThreadId) : {α : Type} → Process mode n S V α → List (Fin n × ThreadId)
  | _, .act action _ => action.closes.map (·, me)
  | _, .attempt scope part _ => part.scopes me ++ scope.toList.map (·, me)
  | _, .onThread _ _ part _ => part.scopes me.child
  | _, _ => []

/-- Scopes are opened and closed by marking and taking marks back, and by nothing else. -/
def Bracketed : {α : Type} → Process mode n S V α → Prop
  | _, .done _ => True
  | _, .unwind _ => True
  | _, .act action next =>
    ∀ b, (next b).Bracketed ∧ ∀ me, (next b).scopes me = action.opens.map (·, me)
  | _, .withOwn _ next => ∀ b, (next b).Bracketed ∧ ∀ me, (next b).scopes me = []
  | _, .attempt scope part next => part.Bracketed ∧
    ∀ result, (next result).Bracketed ∧ ∀ me, (next result).scopes me = scope.toList.map (·, me)
  | _, .onThread _ _ part next => part.Bracketed ∧
    ∀ result, (next result).Bracketed ∧ ∀ me, (next result).scopes me = []

/-- A course that goes on with these live scopes, all of them its own, innermost first. -/
structure Tidy (p : Process mode n S V α) (live : List (Fin n)) : Prop where
  bracketed : p.Bracketed
  scopes_eq : ∀ me, p.scopes me = live.map (·, me)

theorem tidy_done (value : α) : (.done value : Process mode n S V α).Tidy [] :=
  ⟨trivial, fun _ => rfl⟩

theorem tidy_unwind (fault : Fault) : (.unwind fault : Process mode n S V α).Tidy [] :=
  ⟨trivial, fun _ => rfl⟩

theorem tidy_act (action : Action n V β) {next : β → Process mode n S V α}
    (h : ∀ b, (next b).Tidy action.opens) :
    (.act action next : Process mode n S V α).Tidy action.closes :=
  ⟨fun b => ⟨(h b).bracketed, (h b).scopes_eq⟩, fun _ => rfl⟩

/-- One course after another, if nothing is live when the second starts. -/
theorem Tidy.bind {p : Process mode n S V α} {f : α → Process mode n S V β} {live : List (Fin n)}
    (h : p.Tidy live) (hf : ∀ a, (f a).Tidy []) : (p.bind f).Tidy live := by
  induction p generalizing live with
  | done value =>
    have hlive : live = [] := List.map_eq_nil_iff.mp (h.scopes_eq default).symm
    rw [hlive]
    exact hf value
  | unwind fault => exact ⟨trivial, h.scopes_eq⟩
  | act action next ih =>
    refine ⟨fun b => ?_, h.scopes_eq⟩
    have hnext := ih b ⟨(h.bracketed b).1, (h.bracketed b).2⟩ hf
    exact ⟨hnext.bracketed, hnext.scopes_eq⟩
  | withOwn change next ih =>
    refine ⟨fun b => ?_, h.scopes_eq⟩
    have hnext := ih b (show (next b).Tidy [] from ⟨(h.bracketed b).1, (h.bracketed b).2⟩) hf
    exact ⟨hnext.bracketed, hnext.scopes_eq⟩
  | attempt scope part next _ ih =>
    refine ⟨⟨h.bracketed.1, fun result => ?_⟩, h.scopes_eq⟩
    have hrest := h.bracketed.2 result
    have hnext := ih result ⟨hrest.1, hrest.2⟩ hf
    exact ⟨hnext.bracketed, hnext.scopes_eq⟩
  | onThread may own part next _ ih =>
    refine ⟨⟨h.bracketed.1, fun result => ?_⟩, h.scopes_eq⟩
    have hrest := h.bracketed.2 result
    have hnext := ih result (show (next result).Tidy [] from ⟨hrest.1, hrest.2⟩) hf
    exact ⟨hnext.bracketed, hnext.scopes_eq⟩

/-- A part that may fail, in a scope or in none. -/
theorem tidy_attempt (scope : Option (Fin n)) {part : Process mode n S V β} {live : List (Fin n)}
    {next : Except Fault β → Process mode n S V α} (hpart : part.Tidy live)
    (h : ∀ result, (next result).Tidy scope.toList) :
    (.attempt scope part next : Process mode n S V α).Tidy (live ++ scope.toList) :=
  ⟨⟨hpart.bracketed, fun result => ⟨(h result).bracketed, (h result).scopes_eq⟩⟩, fun me => by
    rw [scopes, hpart.scopes_eq, List.map_append]⟩

/-- A course that keeps to the order of checks, locks and marks has the scopes of its standing. -/
theorem Keeps.tidy {p : Process mode n S V α} {standing final : Standing n}
    (h : p.Keeps standing final) (hfinal : final.scopes = []) : p.Tidy standing.calls := by
  have hfree {standing : Standing n} (hholds : standing.holds = []) : standing.calls = [] := by
    rw [Standing.calls, Standing.scopes_eq_nil hholds, List.map_nil]
  induction p generalizing standing final with
  | done value =>
    obtain rfl | ⟨hnothing, -⟩ := h
    · rw [Standing.calls, hfinal]
      exact tidy_done value
    · rw [hfree hnothing]
      exact tidy_done value
  | unwind fault =>
    rw [hfree h]
    exact tidy_unwind fault
  | act action next ih =>
    obtain ⟨standing', hallows, hnext⟩ := h
    rw [← hallows.closes_eq]
    refine tidy_act action fun b => ?_
    rw [hallows.opens_eq]
    exact ih b (hnext b) hfinal
  | withOwn change next ih =>
    rw [hfree h.1]
    have hnext (b) := ih b (h.2 b) hfinal
    rw [hfree h.1] at hnext
    exact ⟨fun b => ⟨(hnext b).bracketed, (hnext b).scopes_eq⟩, fun _ => rfl⟩
  | attempt scope part next ihpart ih =>
    cases scope with
    | none =>
      have htidy := tidy_attempt none (ihpart h.1 rfl) fun result => ih result (h.2 result) hfinal
      rwa [Option.toList_none, List.append_nil] at htidy
    | some i =>
      obtain ⟨inner, access, rfl, hpart, hnext⟩ := h
      have htidy := tidy_attempt (some i) (ihpart hpart rfl)
        fun result => ih result (hnext result) hfinal
      rwa [Standing.calls, Standing.under, List.map_append]
  | onThread => exact h.elim

/-- Going through a list, if nothing is live when an element starts. -/
theorem tidy_mapM {f : γ → Process mode n S V β} (h : ∀ a, (f a).Tidy []) (list : List γ) :
    (list.mapM f).Tidy [] := by
  induction list with
  | nil => exact tidy_done []
  | cons a list ih =>
    rw [List.mapM_cons]
    exact (h a).bind fun b => ih.bind fun bs => tidy_done (b :: bs)

/-- An action that opens no scope. -/
theorem tidy_perform (action : Action n V β) (hopens : action.opens = [] := by rfl) :
    (perform action : Process mode n S V β).Tidy action.closes :=
  tidy_act action fun b => hopens ▸ tidy_done b

theorem tidy_request (i : Fin n) (access : Access) :
    (request i access : Process mode n S V Unit).Tidy [] :=
  (keeps_request i access).tidy rfl

/-- A callback under a mark opens a scope, which is closed however the callback ends. -/
theorem tidy_underMark {i : Fin n} {access : Access} {callback : Process mode n S V β}
    (h : callback.Tidy []) : (underMark i access callback).Tidy [] := by
  refine tidy_act (.mark i) fun _ => tidy_attempt (some i) h fun result => ?_
  cases result with
  | ok b => exact (tidy_perform (.unmark i)).bind fun _ => tidy_done b
  | error fault =>
    exact (tidy_perform (.unmark i)).bind fun _ =>
      (tidy_perform (.release i access)).bind fun _ => tidy_unwind fault

theorem tidy_update {key : String} {callback : Option V → Process mode n S V (V × β)}
    (h : ∀ old, (callback old).Tidy []) : (update key callback).Tidy [] := by
  refine (tidy_perform (.route key)).bind fun i => ?_
  refine (tidy_request i .exclusive).bind fun _ => ?_
  refine (tidy_perform (.load i)).bind fun table => ?_
  refine (tidy_underMark (h table[key]?)).bind fun stored => ?_
  refine (tidy_perform (.put i _)).bind fun _ => ?_
  refine (tidy_perform (.bump i .writes)).bind fun _ => ?_
  exact (tidy_perform (.release i .exclusive)).bind fun _ => tidy_done _

theorem tidy_visitShard {callback : String → V → Process mode n S V β}
    (h : ∀ key value, (callback key value).Tidy []) (i : Fin n) :
    (visitShard callback i).Tidy [] := by
  refine (tidy_request i .shared).bind fun _ => ?_
  refine (tidy_perform (.load i)).bind fun table => ?_
  refine (tidy_underMark (tidy_mapM (fun entry => ?_) _)).bind fun visited => ?_
  · exact (h entry.1 entry.2).bind fun b => tidy_done (entry, b)
  · exact (tidy_perform (.release i .shared)).bind fun _ => tidy_done visited

theorem tidy_visit {callback : String → V → Process mode n S V β}
    (h : ∀ key value, (callback key value).Tidy []) : (visit callback).Tidy [] :=
  (tidy_mapM (tidy_visitShard h) _).bind fun visited => tidy_done visited.flatten

end Process

/-- Every program opens and closes its scopes. -/
theorem Program.tidy_process {S V α : Type} {mode : Threading} {n : Nat}
    (program : Program mode S V α) : (program.process : Process mode n S V α).Tidy [] := by
  induction program with
  | done value => exact Process.tidy_done value
  | unwind fault => exact Process.tidy_unwind fault
  | call operation next ih => exact (operation.keeps_process.tidy rfl).bind ih
  | withOwn change next ih =>
    exact ⟨fun b => ⟨(ih b).bracketed, (ih b).scopes_eq⟩, fun _ => rfl⟩
  | update key callback next ihcallback ih => exact (Process.tidy_update ihcallback).bind ih
  | visit callback next ihcallback ih => exact (Process.tidy_visit ihcallback).bind ih
  | attempt part next ihpart ih => exact Process.tidy_attempt none ihpart ih
  | onThread may own part next ihpart ih =>
    exact ⟨⟨ihpart.bracketed, fun result => ⟨(ih result).bracketed, (ih result).scopes_eq⟩⟩,
      fun me => ihpart.scopes_eq me.child⟩

namespace Process

variable {σ S V α β : Type} {mode : Threading} {n : Nat} {me : ThreadId} {i : Fin n}
  {p p' : Process mode n S V α} {store store' : Store σ V n} {own own' : S}

/-- No scope is live when a thread begins. -/
theorem Begins.tidy (h : p.Begins) : p.Tidy [] := by
  cases h with
  | program program => exact program.tidy_process
  | reader i value => exact ((keeps_capture i).tidy rfl).bind fun _ => tidy_done value

/-! ## One step -/

/-- No scope is live when a course has ended. -/
theorem scopes_of_ended? {result : Except Fault α} (h : p.ended? = some result) :
    p.scopes me = [] := by
  obtain ⟨value, -, rfl⟩ | ⟨fault, -, rfl⟩ := eq_of_ended? h <;> rfl

/-- The live scopes of a course are of its thread, or of threads that descend from it. -/
theorem origin_of_mem_scopes {thread : ThreadId} (h : (i, thread) ∈ p.scopes me) :
    thread.origin = me.origin := by
  induction p generalizing me with
  | done => cases h
  | unwind => cases h
  | act action next _ =>
    obtain ⟨j, -, heq⟩ := List.mem_map.mp h
    cases heq
    rfl
  | withOwn => cases h
  | attempt scope part next ihpart _ =>
    rcases List.mem_append.mp h with hpart | hscope
    · exact ihpart hpart
    · obtain ⟨j, -, heq⟩ := List.mem_map.mp hscope
      cases heq
      rfl
  | onThread may own part next ihpart _ =>
    have horigin := ihpart (show (i, thread) ∈ part.scopes me.child from h)
    exact horigin

/-- A step opens and closes scopes by marking and taking marks back. -/
theorem Bracketed.step? (h : p.Bracketed) (hstep : p.step? me store own = some (p', store', own')) :
    p'.Bracketed := by
  induction p generalizing me store own store' own' with
  | done => cases hstep
  | unwind => cases hstep
  | act action next _ =>
    simp only [Process.step?] at hstep
    split at hstep
    · cases hstep; exact (h _).1
    · cases hstep; trivial
    · cases hstep
  | withOwn change next _ => cases hstep; exact (h _).1
  | attempt scope part next ihpart _ =>
    simp only [Process.step?] at hstep
    split at hstep
    · cases hstep; exact (h.2 _).1
    · obtain ⟨⟨part', store₁, own₁⟩, hpart, heq⟩ := Option.map_eq_some_iff.mp hstep
      cases heq
      exact ⟨ihpart h.1 hpart, h.2⟩
  | onThread may fresh part next ihpart _ =>
    simp only [Process.step?] at hstep
    split at hstep
    · cases hstep; exact (h.2 _).1
    · obtain ⟨⟨part', store₁, own₁⟩, hpart, heq⟩ := Option.map_eq_some_iff.mp hstep
      cases heq
      exact ⟨ihpart h.1 hpart, h.2⟩

/-- **Scopes change with the action that a step performs**, in the name of the thread that performs
it: the thread of the course, or one that descends from it. -/
theorem Bracketed.scopes_step? (h : p.Bracketed)
    (hstep : p.step? me store own = some (p', store', own')) :
    store' = store ∧ p'.scopes me = p.scopes me ∨
      ∃ (β : Type) (action : Action n V β) (thread : ThreadId), thread.origin = me.origin ∧
        store' = (action.perform thread store).2 ∧
        (p'.scopes me ++ action.closes.map (·, thread)).Perm
          (p.scopes me ++ action.opens.map (·, thread)) := by
  induction p generalizing me store own store' own' with
  | done => cases hstep
  | unwind => cases hstep
  | act action next _ =>
    refine .inr ⟨_, action, me, rfl, ?_⟩
    simp only [Process.step?] at hstep
    split at hstep
    · next b store₁ hperform =>
      cases hstep
      rw [hperform, (h b).2]
      exact ⟨rfl, List.perm_append_comm⟩
    · next fault store₁ hperform =>
      cases hstep
      obtain ⟨hopens, hcloses⟩ := Action.eq_nil_of_unwound hperform
      refine ⟨by rw [hperform], ?_⟩
      change ([] ++ action.closes.map (·, me)).Perm
        (action.closes.map (·, me) ++ action.opens.map (·, me))
      rw [hopens, hcloses]
      exact .refl []
    · cases hstep
  | withOwn change next _ =>
    cases hstep
    exact .inl ⟨rfl, (h _).2 me⟩
  | attempt scope part next ihpart _ =>
    simp only [Process.step?] at hstep
    split at hstep
    · next result hended =>
      cases hstep
      refine .inl ⟨rfl, ?_⟩
      rw [(h.2 result).2, scopes, scopes_of_ended? hended, List.nil_append]
    · obtain ⟨⟨part', store₁, own₁⟩, hpart, heq⟩ := Option.map_eq_some_iff.mp hstep
      cases heq
      rcases ihpart h.1 hpart with ⟨rfl, hsame⟩ | ⟨_, action, thread, horigin, hperform, hperm⟩
      · exact .inl ⟨rfl, by rw [scopes, scopes, hsame]⟩
      · refine .inr ⟨_, action, thread, horigin, hperform, List.perm_iff_count.mpr fun scope => ?_⟩
        have hcount := hperm.count_eq scope
        simp only [scopes, List.count_append] at hcount ⊢
        omega
  | onThread may fresh part next ihpart _ =>
    simp only [Process.step?] at hstep
    split at hstep
    · next result hended =>
      cases hstep
      refine .inl ⟨rfl, ?_⟩
      rw [(h.2 result).2, scopes, scopes_of_ended? hended]
    · obtain ⟨⟨part', store₁, own₁⟩, hpart, heq⟩ := Option.map_eq_some_iff.mp hstep
      cases heq
      have hrest := ihpart h.1 hpart
      exact hrest

end Process

end ShardStore
