import ShardStore.Proofs.Courses.Books
import ShardStore.Proofs.Threads.Orderly

/-!
# What threads have done

A log lists the actions that threads have performed, in the order in which they performed them, each
with its result. Besides, it notes which of them have overwritten a key. `Threads.Logs` is
`Threads.Reaches` with a log kept; nothing else is different (`Threads.exists_logs_iff`).

`Process.Ends` says what a course performs until it ends. Whatever a thread performs of its course
is in the log (`Threads.Logs.exists_ends`), and so is what it performs of any call in its course
(`Process.Ends.of_bind`).
-/

namespace ShardStore

/-- An action that was performed, with its result. -/
abbrev Performed (n : Nat) (V : Type) : Type 1 :=
  (β : Type) × Action n V β × β

namespace Performed

variable {σ V : Type} {n : Nat}

/-- Whether it counted an event on a shard. -/
def counts (i : Fin n) (counter : Counter) : Performed n V → Bool
  | ⟨_, .bump j counted, _⟩ => j = i ∧ counted = counter
  | _ => false

/-- The shard on which it overwrote a key: a table was replaced for a write, which is counted next,
and the new table has no key that the old one had not. -/
def overwrites? (store : Store σ V n) (due : Option (Fin n × Counter)) :
    Performed n V → Option (Fin n)
  | ⟨_, .put i table, _⟩ =>
    if due = some (i, .writes) ∧ ∀ key ∈ table.keys, key ∈ store.table i then some i else none
  | _ => none

end Performed

namespace Process

variable {σ S V α β γ : Type} {mode : Threading} {n : Nat}

/-- What the next step of a course of thread `me` performs, if it performs an action that has a
result. -/
def performs? (me : ThreadId) :
    {α : Type} → Process mode n S V α → Store σ V n → Option (Performed n V)
  | _, .act action _, store =>
    match (action.perform me store).1 with
    | .returned b => some ⟨_, action, b⟩
    | _ => none
  | _, .attempt _ part _, store => part.performs? me store
  | _, .onThread _ _ part _, store => part.performs? me.child store
  | _, _, _ => none

/-- A course that has ended performs nothing. -/
theorem performs?_of_ended? {me : ThreadId} {p : Process mode n S V α} {result : Except Fault α}
    (h : p.ended? = some result) (store : Store σ V n) : p.performs? me store = none := by
  obtain ⟨value, -, rfl⟩ | ⟨fault, -, rfl⟩ := eq_of_ended? h <;> rfl

/-- A step performs an action, on this thread or on one that it has started, or leaves the shards
alone. -/
theorem performs?_of_step? {me : ThreadId} {p p' : Process mode n S V α}
    {store store' : Store σ V n} {own own' : S}
    (h : p.step? me store own = some (p', store', own')) :
    p.performs? me store = none ∧ store'.shards = store.shards ∨
      ∃ (thread : ThreadId) (β : Type) (action : Action n V β) (b : β),
        thread.origin = me.origin ∧ p.performs? me store = some ⟨β, action, b⟩ ∧
        action.perform thread store = (.returned b, store') := by
  induction p generalizing me own own' with
  | done => cases h
  | unwind => cases h
  | act action next _ =>
    simp only [step?] at h
    split at h
    · next b _ hperform =>
      cases h
      exact .inr ⟨me, _, action, b, rfl, by simp only [performs?, hperform], hperform⟩
    · next hperform =>
      cases h
      refine .inl ⟨by simp only [performs?, hperform], ?_⟩
      cases action with
      | route key =>
        simp only [Action.perform] at hperform
        split at hperform
        · cases hperform
        · next heq => cases hperform; rw [← congrArg (fun r => r.2.shards) heq]; rfl
      | check i =>
        simp only [Action.perform] at hperform
        split at hperform
        · cases hperform; rfl
        · cases hperform
      | acquire i access =>
        simp only [Action.perform] at hperform
        split at hperform <;> cases hperform
      | _ => cases hperform
    · cases h
  | withOwn change next _ => cases h; exact .inl ⟨rfl, rfl⟩
  | attempt scope part next ihpart _ =>
    simp only [step?] at h
    split at h
    · next hended => cases h; exact .inl ⟨performs?_of_ended? hended store, rfl⟩
    · obtain ⟨⟨part', store₁, own₁⟩, hstep, heq⟩ := Option.map_eq_some_iff.mp h
      cases heq
      exact ihpart hstep
  | onThread may fresh part next ihpart _ =>
    simp only [step?] at h
    split at h
    · next hended => cases h; exact .inl ⟨performs?_of_ended? hended store, rfl⟩
    · obtain ⟨⟨part', store₁, own₁⟩, hstep, heq⟩ := Option.map_eq_some_iff.mp h
      cases heq
      exact ihpart hstep

/-- What a course performs until it ends, in order and with the results, and how it ends. What a
part performs stands in a row where the part stands. -/
def Ends : {α : Type} → Process mode n S V α → List (Performed n V) → Except Fault α → Prop
  | _, .done value, performed, result => performed = [] ∧ result = .ok value
  | _, .unwind fault, performed, result => performed = [] ∧ result = .error fault
  | _, .act action next, performed, result =>
    (∃ b rest, performed = ⟨_, action, b⟩ :: rest ∧ (next b).Ends rest result) ∨
      ∃ fault, performed = [] ∧ result = .error fault
  | _, .withOwn change next, performed, result =>
    ∃ own, (next (change own).1).Ends performed result
  | _, .attempt _ part next, performed, result =>
    ∃ ended first rest, performed = first ++ rest ∧ part.Ends first ended ∧
      (next ended).Ends rest result
  | _, .onThread _ _ part next, performed, result =>
    ∃ ended first rest, performed = first ++ rest ∧ part.Ends first ended ∧
      (next ended).Ends rest result

/-- A course that has ended ends as it has. -/
theorem ends_of_ended? {p : Process mode n S V α} {result : Except Fault α}
    (h : p.ended? = some result) : p.Ends [] result := by
  obtain ⟨value, rfl, rfl⟩ | ⟨fault, rfl, rfl⟩ := eq_of_ended? h
  · exact ⟨rfl, rfl⟩
  · exact ⟨rfl, rfl⟩

/-- What a course performs is what its next step performs and then what is left performs. -/
theorem Ends.of_step? {me : ThreadId} {p p' : Process mode n S V α} {store store' : Store σ V n}
    {own own' : S} {rest : List (Performed n V)} {result : Except Fault α}
    (h : p'.Ends rest result) (hstep : p.step? me store own = some (p', store', own')) :
    p.Ends ((p.performs? me store).toList ++ rest) result := by
  induction p generalizing me own own' rest with
  | done => cases hstep
  | unwind => cases hstep
  | act action next _ =>
    simp only [step?] at hstep
    split at hstep
    · next b _ hperform =>
      cases hstep
      simp only [performs?, hperform]
      exact .inl ⟨b, rest, rfl, h⟩
    · next fault _ hperform =>
      cases hstep
      obtain ⟨rfl, rfl⟩ := h
      simp only [performs?, hperform]
      exact .inr ⟨fault, rfl, rfl⟩
    · cases hstep
  | withOwn change next _ =>
    cases hstep
    exact ⟨own, h⟩
  | attempt scope part next ihpart _ =>
    simp only [step?] at hstep
    split at hstep
    · next ended hended =>
      cases hstep
      rw [performs?, performs?_of_ended? hended]
      exact ⟨ended, [], rest, rfl, ends_of_ended? hended, h⟩
    · obtain ⟨⟨part', store₁, own₁⟩, hstep', heq⟩ := Option.map_eq_some_iff.mp hstep
      cases heq
      obtain ⟨ended, first, rest, rfl, hfirst, hrest⟩ := h
      exact ⟨ended, _, rest, (List.append_assoc ..).symm, ihpart hfirst hstep', hrest⟩
  | onThread may fresh part next ihpart _ =>
    simp only [step?] at hstep
    split at hstep
    · next ended hended =>
      cases hstep
      rw [performs?, performs?_of_ended? hended]
      exact ⟨ended, [], rest, rfl, ends_of_ended? hended, h⟩
    · obtain ⟨⟨part', store₁, own₁⟩, hstep', heq⟩ := Option.map_eq_some_iff.mp hstep
      cases heq
      obtain ⟨ended, first, rest, rfl, hfirst, hrest⟩ := h
      exact ⟨ended, _, rest, (List.append_assoc ..).symm, ihpart hfirst hstep', hrest⟩

/-- An action in front of a course that returns was performed first. -/
theorem Ends.of_perform_bind {action : Action n V β} {f : β → Process mode n S V α}
    {performed : List (Performed n V)} {a : α}
    (h : ((perform action).bind f).Ends performed (.ok a)) :
    ∃ b rest, performed = ⟨_, action, b⟩ :: rest ∧ (f b).Ends rest (.ok a) := by
  obtain ⟨b, rest, hperformed, hrest⟩ | ⟨fault, -, hfault⟩ := h
  · exact ⟨b, rest, hperformed, hrest⟩
  · cases hfault

/-- One course after another performs what the first one does, and then what the second one does. -/
theorem Ends.of_bind {p : Process mode n S V α} {f : α → Process mode n S V β}
    {performed : List (Performed n V)} {b : β} (h : (p.bind f).Ends performed (.ok b)) :
    ∃ a first second, performed = first ++ second ∧ p.Ends first (.ok a) ∧
      (f a).Ends second (.ok b) := by
  induction p generalizing performed with
  | done value => exact ⟨value, [], performed, rfl, ⟨rfl, rfl⟩, h⟩
  | unwind fault => cases h.2
  | act action next ih =>
    obtain ⟨result, rest, rfl, hrest⟩ | ⟨fault, -, hfault⟩ := h
    · obtain ⟨a, first, second, rfl, hfirst, hsecond⟩ := ih result hrest
      exact ⟨a, _ :: first, second, rfl, .inl ⟨result, first, rfl, hfirst⟩, hsecond⟩
    · cases hfault
  | withOwn change next ih =>
    obtain ⟨own, hrest⟩ := h
    obtain ⟨a, first, second, rfl, hfirst, hsecond⟩ := ih _ hrest
    exact ⟨a, first, second, rfl, ⟨own, hfirst⟩, hsecond⟩
  | attempt scope part next _ ih =>
    obtain ⟨ended, inner, rest, rfl, hinner, hrest⟩ := h
    obtain ⟨a, first, second, rfl, hfirst, hsecond⟩ := ih ended hrest
    exact ⟨a, inner ++ first, second, (List.append_assoc ..).symm,
      ⟨ended, inner, first, rfl, hinner, hfirst⟩, hsecond⟩
  | onThread may own part next _ ih =>
    obtain ⟨ended, inner, rest, rfl, hinner, hrest⟩ := h
    obtain ⟨a, first, second, rfl, hfirst, hsecond⟩ := ih ended hrest
    exact ⟨a, inner ++ first, second, (List.append_assoc ..).symm,
      ⟨ended, inner, first, rfl, hinner, hfirst⟩, hsecond⟩

end Process

/-- What was performed, and the shard on which this overwrote a key. -/
structure Entry (n : Nat) (V : Type) : Type 1 where
  performed : Performed n V
  overwrote : Option (Fin n) := none

/-- How many events of a kind were counted on a shard. -/
def counted {n : Nat} {V : Type} (log : List (Entry n V)) (i : Fin n) (counter : Counter) : Nat :=
  log.countP fun entry => entry.performed.counts i counter

/-- How many writes on a shard overwrote a key. -/
def overwritten {n : Nat} {V : Type} (log : List (Entry n V)) (i : Fin n) : Nat :=
  log.countP fun entry => entry.overwrote = some i

namespace Threads

variable {mode : Threading} {σ S V α : Type} {n : Nat}

/-- What is noted of a step of thread `t`. -/
def note? (threads threads' : Threads mode σ S V α n) (t : Nat) : Option (Entry n V) := do
  let (_, course) ← threads.courses[t]?
  let (_, course') ← threads'.courses[t]?
  let performed ← course.performs? { origin := t } threads.store
  return { performed, overwrote := performed.overwrites? threads.store course'.due? }

/-- What is noted of a step is what its course performs. -/
theorem note?_eq {threads : Threads mode σ S V α n} {t : Nat} {own own' : S}
    {course course' : Process mode n S V α} (hcourse : threads.courses[t]? = some (own, course))
    (store' : Store σ V n) :
    threads.note? { store := store', courses := threads.courses.set t (own', course') } t =
      (course.performs? { origin := t } threads.store).map fun performed =>
        { performed, overwrote := performed.overwrites? threads.store course'.due? } := by
  have hcourse' : (threads.courses.set t (own', course'))[t]? = some (own', course') :=
    List.getElem?_set_self (List.getElem?_eq_some_iff.mp hcourse).1
  simp only [note?, hcourse, hcourse', bind, Option.bind_some, pure, Option.map_eq_bind]
  rfl

/-- What is noted of a step was performed. -/
theorem performed_of_note? {threads threads' : Threads mode σ S V α n} {t : Nat}
    {entry : Entry n V} (h : threads.note? threads' t = some entry)
    (hstep : threads.step? t = some threads') :
    ∃ (thread : ThreadId) (β : Type) (action : Action n V β) (b : β),
      entry.performed = ⟨β, action, b⟩ ∧
      action.perform thread threads.store = (.returned b, threads'.store) := by
  unfold Threads.step? at hstep
  split at hstep
  · cases hstep
  next own course hcourse =>
    obtain ⟨⟨course', store', own'⟩, hmoves, rfl⟩ := Option.map_eq_some_iff.mp hstep
    rw [note?_eq hcourse] at h
    obtain ⟨performed, hperformed, rfl⟩ := Option.map_eq_some_iff.mp h
    rcases Process.performs?_of_step? hmoves with
      ⟨hnothing, -⟩ | ⟨thread, β, action, b, -, hsome, hperform⟩
    · cases hnothing.symm.trans hperformed
    · exact ⟨thread, β, action, b, Option.some.inj (hperformed.symm.trans hsome), hperform⟩

/-- The interleavings of steps, each with its log. -/
inductive Logs (start : Threads mode σ S V α n) :
    List (Entry n V) → Threads mode σ S V α n → Prop where
  | start : Logs start [] start
  | step {log : List (Entry n V)} {threads threads' : Threads mode σ S V α n} (t : Nat)
      (h : Logs start log threads) (hstep : threads.step? t = some threads') :
      Logs start (log ++ (threads.note? threads' t).toList) threads'

/-- A log was kept entry by entry. -/
theorem Logs.exists_step {start threads : Threads mode σ S V α n}
    {log before after : List (Entry n V)} {entry : Entry n V}
    (h : start.Logs log threads) (hlog : log = before ++ entry :: after) :
    ∃ (threads₁ threads₂ : Threads mode σ S V α n) (t : Nat), start.Logs before threads₁ ∧
      threads₁.step? t = some threads₂ ∧ threads₁.note? threads₂ t = some entry := by
  induction h generalizing after with
  | start => simp at hlog
  | @step log threads threads' t h hstep ih =>
    cases hentry : threads.note? threads' t with
    | none =>
      rw [hentry, Option.toList_none, List.append_nil] at hlog
      exact ih hlog
    | some last =>
      rw [hentry, Option.toList_some] at hlog
      rcases List.eq_nil_or_concat after with rfl | ⟨after, other, rfl⟩
      · obtain ⟨rfl, heq⟩ := List.append_inj' hlog rfl
        cases heq
        exact ⟨threads, threads', t, h, hstep, hentry⟩
      · rw [List.concat_eq_append, ← List.cons_append, ← List.append_assoc] at hlog
        exact ih (List.append_inj' hlog rfl).1

/-- **What a thread performs is in the log.** However its course ends, what it performs until then
is some of the log so far and what is left of the course performs. -/
theorem Logs.exists_ends {start threads : Threads mode σ S V α n} {log : List (Entry n V)}
    (h : start.Logs log threads) {t : Nat} {own : S} {course : Process mode n S V α}
    (hcourse : start.courses[t]? = some (own, course)) :
    ∃ own' course' performed, threads.courses[t]? = some (own', course') ∧
      performed.Sublist (log.map Entry.performed) ∧
      ∀ rest result, course'.Ends rest result → course.Ends (performed ++ rest) result := by
  induction h with
  | start => exact ⟨own, course, [], hcourse, List.nil_sublist _, fun _ _ hends => hends⟩
  | @step log threads threads' u _ hstep ih =>
    obtain ⟨own', course', performed, hcourse', hsublist, hends⟩ := ih
    unfold Threads.step? at hstep
    split at hstep
    · cases hstep
    next own₁ course₁ hcourse₁ =>
      obtain ⟨⟨course₂, store₂, own₂⟩, hmoves, rfl⟩ := Option.map_eq_some_iff.mp hstep
      rw [List.map_append]
      by_cases hu : u = t
      · subst hu
        cases hcourse'.symm.trans hcourse₁
        refine ⟨own₂, course₂,
          performed ++ (course'.performs? { origin := u } threads.store).toList,
          List.getElem?_set_self (List.getElem?_eq_some_iff.mp hcourse').1, hsublist.append ?_,
          fun rest result hrest => ?_⟩
        · rw [note?_eq hcourse']
          cases course'.performs? { origin := u } threads.store with
          | none => exact List.Sublist.refl _
          | some last => exact List.Sublist.refl _
        · rw [List.append_assoc]
          exact hends _ _ (hrest.of_step? hmoves)
      · refine ⟨own', course', performed, ?_, hsublist.trans (List.sublist_append_left ..), hends⟩
        rwa [List.getElem?_set_ne hu]

/-- Every interleaving has a log. -/
theorem exists_logs_iff {start threads : Threads mode σ S V α n} :
    (∃ log, start.Logs log threads) ↔ start.Reaches threads := by
  constructor
  · rintro ⟨log, hlogs⟩
    induction hlogs with
    | start => exact .refl start
    | step t _ hstep ih => exact .step t ih hstep
  · intro hreaches
    induction hreaches with
    | refl => exact ⟨[], .start⟩
    | step t _ hstep ih =>
      obtain ⟨log, hlogs⟩ := ih
      exact ⟨_, hlogs.step t hstep⟩

end Threads

end ShardStore
