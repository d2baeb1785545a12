import ShardStore.Process.Frame
import ShardStore.Proofs.Threads.Orderly

/-!
# A course amid other threads

Between two actions of a thread the others may act. Where every thread keeps to the order of checks,
locks and marks, this shows neither in the marks of the thread nor in the locks that it holds
(`Store.Meanwhile`), and that is all that is asked of the others here. `Process.Amid` lists the
points that a course passes through amid them, each with the actions that the course itself has
performed on the way; every interleaving of threads is such a way (`Threads.Reaches.amid`).
`Process.EndsAmid` is about the points at which a course has ended, and goes by the parts that the
course is composed of.
-/

namespace ShardStore

/-- An action together with the type of its result. -/
abbrev Act (n : Nat) (V : Type) : Type 1 :=
  (β : Type) × Action n V β

/-- What other threads may have done to a store since thread `me` last acted: anything that leaves
its marks and the locks that it holds. -/
structure Store.Meanwhile {σ V : Type} {n : Nat} (store : Store σ V n) (me : ThreadId)
    (store' : Store σ V n) : Prop where
  marks : ∀ i, (store'.shard i).markers.count me = (store.shard i).markers.count me
  readers : ∀ i, (store'.shard i).lock.readers.count me = (store.shard i).lock.readers.count me
  writer : ∀ i, (store'.shard i).lock.writer = some me ↔ (store.shard i).lock.writer = some me

namespace Store

variable {σ V : Type} {n : Nat} {store store' store'' : Store σ V n} {me : ThreadId}
  {standing : Standing n}

theorem Meanwhile.refl (store : Store σ V n) (me : ThreadId) : store.Meanwhile me store :=
  ⟨fun _ => rfl, fun _ => rfl, fun _ => Iff.rfl⟩

theorem Meanwhile.trans (h : store.Meanwhile me store') (h' : store'.Meanwhile me store'') :
    store.Meanwhile me store'' where
  marks i := (h'.marks i).trans (h.marks i)
  readers i := (h'.readers i).trans (h.readers i)
  writer i := (h'.writer i).trans (h.writer i)

/-- A thread has the marks that it had. -/
theorem Meanwhile.mem_markers (h : store.Meanwhile me store') (i : Fin n) :
    me ∈ (store'.shard i).markers ↔ me ∈ (store.shard i).markers := by
  rw [← List.count_pos_iff, h.marks, List.count_pos_iff]

/-- A thread stands where it stood. -/
theorem Shows.meanwhile (h : store.Shows me standing) (hothers : store.Meanwhile me store') :
    store'.Shows me standing where
  apart := h.apart
  cleared := h.cleared
  marks i := (hothers.marks i).trans (h.marks i)
  readers i := (hothers.readers i).trans (h.readers i)
  writer i := (hothers.writer i).trans (h.writer i)

/-- Where a thread stands as before, its marks and locks are those of before. -/
theorem Shows.meanwhile_of_shows (h : store.Shows me standing) (h' : store'.Shows me standing) :
    store.Meanwhile me store' where
  marks i := (h'.marks i).trans (h.marks i).symm
  readers i := (h'.readers i).trans (h.readers i).symm
  writer i := (h'.writer i).trans (h.writer i).symm

end Store

/-! ## Points amid others -/

namespace Process

variable {σ S V α β : Type} {mode : Threading} {n : Nat} {me : ThreadId}

/-- The points that a course of thread `me` passes through while others act in between, with the
actions that it has performed itself so far. -/
inductive Amid (me : ThreadId) (p : Process mode n S V α) (store : Store σ V n) (own : S) :
    List (Act n V) → Process mode n S V α → Store σ V n → S → Prop where
  | refl : Amid me p store own [] p store own
  | step {acts : List (Act n V)} {p' p'' : Process mode n S V α} {store' store'' : Store σ V n}
      {own' own'' : S} (h : Amid me p store own acts p' store' own')
      (hstep : p'.step? me store' own' = some (p'', store'', own'')) :
      Amid me p store own (acts ++ p'.upcoming?.toList) p'' store'' own''
  | others {acts : List (Act n V)} {p' : Process mode n S V α} {store' store'' : Store σ V n}
      {own' : S} (h : Amid me p store own acts p' store' own')
      (hothers : store'.Meanwhile me store'') : Amid me p store own acts p' store'' own'

variable {p p' q : Process mode n S V α} {store store' store'' : Store σ V n} {own own' own'' : S}
  {acts acts' : List (Act n V)}

theorem Amid.trans (h : Amid me p store own acts p' store' own')
    (h' : Amid me p' store' own' acts' q store'' own'') :
    Amid me p store own (acts ++ acts') q store'' own'' := by
  induction h' with
  | refl => rwa [List.append_nil]
  | step _ hstep ih =>
    rw [← List.append_assoc]
    exact .step ih hstep
  | others _ hothers ih => exact .others ih hothers

/-- What is reached alone is reached amid others that do nothing. -/
theorem Reaches.amid (h : Reaches me p store own p' store' own') :
    ∃ acts, Amid me p store own acts p' store' own' := by
  induction h with
  | refl => exact ⟨[], .refl⟩
  | step _ hstep ih =>
    obtain ⟨acts, hamid⟩ := ih
    exact ⟨_, hamid.step hstep⟩

/-- A course that keeps to the order takes its locks and marks along amid others. -/
theorem Keeps.amid {p p' : Process .single n S V α} {scopes : List (Fin n × Access)}
    {final : Standing n} (h : p.Keeps .idle final)
    (hshows : store.Shows me (Standing.idle.under scopes))
    (hamid : Amid me p store own acts p' store' own') :
    ∃ standing, p'.Keeps standing final ∧ store'.Shows me (standing.under scopes) := by
  induction hamid with
  | refl => exact ⟨.idle, h, hshows⟩
  | step _ hstep ih =>
    obtain ⟨standing, hkeeps, hshows'⟩ := ih
    exact hkeeps.step? hshows' hstep
  | others _ hothers ih =>
    obtain ⟨standing, hkeeps, hshows'⟩ := ih
    exact ⟨standing, hkeeps, hshows'.meanwhile hothers⟩

/-! ## Points of a composed course -/

theorem ended?_bind {f : α → Process mode n S V β} (hended : p.ended? = none) :
    (p.bind f).ended? = none := by
  cases p with
  | done => cases hended
  | unwind => cases hended
  | _ => rfl

theorem upcoming?_bind {f : α → Process mode n S V β} (hended : p.ended? = none) :
    (p.bind f).upcoming? = p.upcoming? := by
  cases p with
  | done => cases hended
  | unwind => cases hended
  | _ => rfl

/-- A course with a rest makes the steps of the course until this has ended. -/
theorem step?_bind {f : α → Process mode n S V β} (hended : p.ended? = none) :
    (p.bind f).step? me store own =
      (p.step? me store own).map fun (p, store, own) => (p.bind f, store, own) := by
  cases p with
  | done => cases hended
  | unwind => cases hended
  | act action next =>
    simp only [bind, step?]
    split <;> rfl
  | withOwn change next => rfl
  | attempt scope part next =>
    simp only [bind, step?]
    split
    · rfl
    · rw [Option.map_map]
      rfl
  | onThread may fresh part next =>
    simp only [bind, step?]
    split
    · rfl
    · rw [Option.map_map]
      rfl

/-- A course with a rest is at a point of the course, or of the rest after the course returned. -/
theorem Amid.of_bind {f : α → Process mode n S V β} {q : Process mode n S V β}
    (h : Amid me (p.bind f) store own acts q store' own') :
    (∃ p', Amid me p store own acts p' store' own' ∧ q = p'.bind f) ∨
      ∃ a acts₁ acts₂ store₁ own₁, Amid me p store own acts₁ (.done a) store₁ own₁ ∧
        Amid me (f a) store₁ own₁ acts₂ q store' own' ∧ acts = acts₁ ++ acts₂ := by
  induction h with
  | refl => exact .inl ⟨p, .refl, rfl⟩
  | @step acts q q' store₁ store₂ own₁ own₂ _ hstep ih =>
    rcases ih with ⟨p', hamid, rfl⟩ | ⟨a, acts₁, acts₂, store₀, own₀, hfirst, hrest, rfl⟩
    · cases hended : p'.ended? with
      | none =>
        -- The step is one of the course.
        rw [step?_bind hended] at hstep
        obtain ⟨⟨p'', store'', own''⟩, hstep', heq⟩ := Option.map_eq_some_iff.mp hstep
        cases heq
        rw [upcoming?_bind hended]
        exact .inl ⟨p'', hamid.step hstep', rfl⟩
      | some result =>
        obtain ⟨a, -, rfl⟩ | ⟨fault, -, rfl⟩ := eq_of_ended? hended
        · exact .inr ⟨a, acts, _, store₁, own₁, hamid, Amid.step .refl hstep, rfl⟩
        · cases hstep
    · refine .inr ⟨a, acts₁, _, store₀, own₀, hfirst, hrest.step hstep, ?_⟩
      rw [List.append_assoc]
  | others _ hothers ih =>
    rcases ih with ⟨p', hamid, rfl⟩ | ⟨a, acts₁, acts₂, store₁, own₁, hfirst, hrest, rfl⟩
    · exact .inl ⟨p', hamid.others hothers, rfl⟩
    · exact .inr ⟨a, acts₁, acts₂, store₁, own₁, hfirst, hrest.others hothers, rfl⟩

/-- A course that attempts a part is at a point of the part, or of what follows its end. -/
theorem Amid.of_attempt {scope : Option (Fin n)} {part : Process mode n S V β}
    {next : Except Fault β → Process mode n S V α}
    (h : Amid me (.attempt scope part next) store own acts q store' own') :
    (∃ part', Amid me part store own acts part' store' own' ∧ q = .attempt scope part' next) ∨
      ∃ part' result acts₁ acts₂ store₁ own₁, Amid me part store own acts₁ part' store₁ own₁ ∧
        part'.ended? = some result ∧ Amid me (next result) store₁ own₁ acts₂ q store' own' ∧
        acts = acts₁ ++ acts₂ := by
  induction h with
  | refl => exact .inl ⟨part, .refl, rfl⟩
  | @step acts q q' store₁ store₂ own₁ own₂ _ hstep ih =>
    rcases ih with ⟨part', hamid, rfl⟩ |
      ⟨part', result, acts₁, acts₂, store₀, own₀, hpart, hended, hrest, rfl⟩
    · simp only [step?] at hstep
      split at hstep
      · next result hended =>
        cases hstep
        refine .inr ⟨part', result, acts, [], store₁, own₁, hamid, hended, .refl, ?_⟩
        obtain ⟨b, -, rfl⟩ | ⟨fault, -, rfl⟩ := eq_of_ended? hended <;> rfl
      · obtain ⟨⟨part'', store'', own''⟩, hstep', heq⟩ := Option.map_eq_some_iff.mp hstep
        cases heq
        exact .inl ⟨part'', hamid.step hstep', rfl⟩
    · refine .inr ⟨part', result, acts₁, _, store₀, own₀, hpart, hended, hrest.step hstep, ?_⟩
      rw [List.append_assoc]
  | others _ hothers ih =>
    rcases ih with ⟨part', hamid, rfl⟩ |
      ⟨part', result, acts₁, acts₂, store₁, own₁, hpart, hended, hrest, rfl⟩
    · exact .inl ⟨part', hamid.others hothers, rfl⟩
    · exact .inr ⟨part', result, acts₁, acts₂, store₁, own₁, hpart, hended,
        hrest.others hothers, rfl⟩

/-- A course that starts with an action has not performed it yet, has gone on with its result, or
has unwound with its fault. -/
theorem Amid.of_perform_bind {action : Action n V β} {rest : β → Process mode n S V α}
    (h : Amid me ((perform action).bind rest) store own acts q store' own') :
    (acts = [] ∧ q = (perform action).bind rest ∧ own' = own ∧ store.Meanwhile me store') ∨
      (∃ b acts' store₁ store₂, store.Meanwhile me store₁ ∧
        action.perform me store₁ = (.returned b, store₂) ∧
        Amid me (rest b) store₂ own acts' q store' own' ∧ acts = ⟨β, action⟩ :: acts') ∨
      ∃ fault store₁ store₂, store.Meanwhile me store₁ ∧
        action.perform me store₁ = (.unwound fault, store₂) ∧ acts = [⟨β, action⟩] ∧
        q = .unwind fault ∧ own' = own ∧ store₂.Meanwhile me store' := by
  induction h with
  | refl => exact .inl ⟨rfl, rfl, rfl, .refl store me⟩
  | @step acts q q' store₁ store₂ own₁ own₂ _ hstep ih =>
    rcases ih with ⟨rfl, rfl, rfl, hothers⟩ |
      ⟨b, acts', before, after, hothers, hperform, hrest, rfl⟩ |
      ⟨fault, before, after, -, -, -, rfl, -⟩
    · simp only [perform, bind, step?] at hstep
      split at hstep
      · next b after hperform =>
        cases hstep
        exact .inr (.inl ⟨b, [], store₁, store₂, hothers, hperform, .refl, rfl⟩)
      · next fault after hperform =>
        cases hstep
        exact .inr (.inr ⟨fault, store₁, store₂, hothers, hperform, rfl, rfl, rfl, .refl _ _⟩)
      · cases hstep
    · exact .inr (.inl ⟨b, _, before, after, hothers, hperform, hrest.step hstep, rfl⟩)
    · cases hstep
  | others _ hothers ih =>
    rcases ih with ⟨rfl, rfl, rfl, hbefore⟩ |
      ⟨b, acts', before, after, hbefore, hperform, hrest, rfl⟩ |
      ⟨fault, before, after, hbefore, hperform, rfl, rfl, rfl, hafter⟩
    · exact .inl ⟨rfl, rfl, rfl, hbefore.trans hothers⟩
    · exact .inr (.inl ⟨b, acts', before, after, hbefore, hperform, hrest.others hothers, rfl⟩)
    · exact .inr (.inr
        ⟨fault, before, after, hbefore, hperform, rfl, rfl, rfl, hafter.trans hothers⟩)

/-! ## Ends of a course -/

/-- The course of thread `me` can end with a result while others act in between. -/
def EndsAmid (me : ThreadId) (p : Process mode n S V α) (store : Store σ V n) (own : S)
    (result : Except Fault α) (store' : Store σ V n) (own' : S) : Prop :=
  ∃ acts p', Amid me p store own acts p' store' own' ∧ p'.ended? = some result

variable {result : Except Fault α}

theorem EndsAmid.others (h : EndsAmid me p store own result store' own')
    (hothers : store'.Meanwhile me store'') : EndsAmid me p store own result store'' own' := by
  obtain ⟨acts, p', hamid, hended⟩ := h
  exact ⟨acts, p', hamid.others hothers, hended⟩

theorem EndsAmid.of_done {a : α}
    (h : EndsAmid me (.done a : Process mode n S V α) store own result store' own') :
    result = .ok a ∧ own' = own ∧ store.Meanwhile me store' := by
  obtain ⟨acts, p', hamid, hended⟩ := h
  suffices hsame : p' = .done a ∧ own' = own ∧ store.Meanwhile me store' by
    obtain ⟨rfl, hown, hothers⟩ := hsame
    exact ⟨(Option.some.inj hended).symm, hown, hothers⟩
  clear hended
  induction hamid with
  | refl => exact ⟨rfl, rfl, .refl store me⟩
  | step _ hstep ih =>
    obtain ⟨rfl, -, -⟩ := ih
    cases hstep
  | others _ hothers ih => exact ⟨ih.1, ih.2.1, ih.2.2.trans hothers⟩

theorem EndsAmid.of_unwind {fault : Fault}
    (h : EndsAmid me (.unwind fault : Process mode n S V α) store own result store' own') :
    result = .error fault ∧ own' = own := by
  obtain ⟨acts, p', hamid, hended⟩ := h
  suffices hsame : p' = .unwind fault ∧ own' = own by
    obtain ⟨rfl, hown⟩ := hsame
    exact ⟨(Option.some.inj hended).symm, hown⟩
  clear hended
  induction hamid with
  | refl => exact ⟨rfl, rfl⟩
  | step _ hstep ih =>
    obtain ⟨rfl, -⟩ := ih
    cases hstep
  | others _ _ ih => exact ih

/-- A course with a rest ends with a fault of the course, or as the rest does after the course
returned. -/
theorem EndsAmid.of_bind {p : Process mode n S V β} {f : β → Process mode n S V α}
    (h : EndsAmid me (p.bind f) store own result store' own') :
    (∃ fault, result = .error fault ∧ EndsAmid me p store own (.error fault) store' own') ∨
      ∃ b store₁ own₁, EndsAmid me p store own (.ok b) store₁ own₁ ∧
        EndsAmid me (f b) store₁ own₁ result store' own' := by
  obtain ⟨acts, q, hamid, hended⟩ := h
  rcases hamid.of_bind with ⟨p', hfirst, rfl⟩ | ⟨b, acts₁, acts₂, store₁, own₁, hfirst, hrest, -⟩
  · cases hp' : p'.ended? with
    | none =>
      rw [ended?_bind hp'] at hended
      cases hended
    | some result' =>
      obtain ⟨b, -, rfl⟩ | ⟨fault, -, rfl⟩ := eq_of_ended? hp'
      · exact .inr ⟨b, store', own', ⟨acts, _, hfirst, rfl⟩, ⟨[], _, .refl, hended⟩⟩
      · exact .inl ⟨fault, (Option.some.inj hended).symm, acts, _, hfirst, rfl⟩
  · exact .inr ⟨b, store₁, own₁, ⟨acts₁, _, hfirst, rfl⟩, ⟨acts₂, q, hrest, hended⟩⟩

/-- A course that attempts a part ends as what follows the end of the part. -/
theorem EndsAmid.of_attempt {scope : Option (Fin n)} {part : Process mode n S V β}
    {next : Except Fault β → Process mode n S V α}
    (h : EndsAmid me (.attempt scope part next) store own result store' own') :
    ∃ result' store₁ own₁, EndsAmid me part store own result' store₁ own₁ ∧
      EndsAmid me (next result') store₁ own₁ result store' own' := by
  obtain ⟨acts, q, hamid, hended⟩ := h
  rcases hamid.of_attempt with ⟨part', -, rfl⟩ |
    ⟨part', result', acts₁, acts₂, store₁, own₁, hpart, hended', hrest, -⟩
  · cases hended
  · exact ⟨result', store₁, own₁, ⟨acts₁, part', hpart, hended'⟩, ⟨acts₂, q, hrest, hended⟩⟩

/-- A course that starts with an action ends with the action's fault, or as the rest does after the
action returned. -/
theorem EndsAmid.of_perform_bind {action : Action n V β} {rest : β → Process mode n S V α}
    (h : EndsAmid me ((perform action).bind rest) store own result store' own') :
    (∃ b store₁ store₂, store.Meanwhile me store₁ ∧
        action.perform me store₁ = (.returned b, store₂) ∧
        EndsAmid me (rest b) store₂ own result store' own') ∨
      ∃ fault store₁ store₂, store.Meanwhile me store₁ ∧
        action.perform me store₁ = (.unwound fault, store₂) ∧ result = .error fault ∧ own' = own ∧
        store₂.Meanwhile me store' := by
  obtain ⟨acts, q, hamid, hended⟩ := h
  rcases hamid.of_perform_bind with ⟨-, rfl, -, -⟩ |
    ⟨b, acts', store₁, store₂, hothers, hperform, hrest, -⟩ |
    ⟨fault, store₁, store₂, hothers, hperform, -, rfl, hown, hafter⟩
  · cases hended
  · exact .inl ⟨b, store₁, store₂, hothers, hperform, acts', q, hrest, hended⟩
  · exact .inr ⟨fault, store₁, store₂, hothers, hperform, (Option.some.inj hended).symm, hown,
      hafter⟩

/-- An action that returns ends amid others. -/
theorem endsAmid_perform {action : Action n V β} {b : β} {store₁ store₂ : Store σ V n} (own : S)
    (hbefore : store.Meanwhile me store₁)
    (hperform : action.perform me store₁ = (.returned b, store₂))
    (hafter : store₂.Meanwhile me store') :
    EndsAmid me (perform action : Process mode n S V β) store own (.ok b) store' own := by
  refine ⟨_, .done b, .others (.step (.others .refl hbefore) ?_) hafter, rfl⟩
  simp only [perform, step?, hperform]

/-- When a course has ended that keeps to the order, its thread stands where it started. -/
theorem Keeps.shows_of_endsAmid {p : Process .single n S V α} {scopes : List (Fin n × Access)}
    (h : p.Keeps .idle .idle) (hshows : store.Shows me (Standing.idle.under scopes))
    (hends : EndsAmid me p store own result store' own') :
    store'.Shows me (Standing.idle.under scopes) := by
  obtain ⟨acts, p', hamid, hended⟩ := hends
  obtain ⟨standing, hkeeps, hshows'⟩ := h.amid hshows hamid
  exact hshows'.rest (hkeeps.holds_of_ended hended)

/-- A callback under a mark ends as the callback does. -/
theorem EndsAmid.of_underMark {i : Fin n} {access : Access} {callback : Process mode n S V β}
    {result : Except Fault β}
    (h : EndsAmid me (underMark i access callback) store own result store' own') :
    ∃ (store₁ store₂ : Store σ V n) (own₂ : S),
      EndsAmid me callback store₁ own result store₂ own₂ := by
  obtain ⟨b, -, store₁, -, -, hattempt⟩ | ⟨fault, store₁, store₂, -, hperform, -⟩ :=
    EndsAmid.of_perform_bind h
  · obtain ⟨result', store₂, own₂, hpart, hrest⟩ := EndsAmid.of_attempt hattempt
    refine ⟨store₁, store₂, own₂, ?_⟩
    -- What follows the callback passes its result on.
    cases result' with
    | ok c =>
      obtain ⟨-, -, store₃, -, -, hdone⟩ | ⟨fault, _, _, -, hperform, -⟩ :=
        EndsAmid.of_perform_bind hrest
      · obtain ⟨rfl, -, -⟩ := hdone.of_done
        exact hpart
      · cases hperform
    | error fault =>
      obtain ⟨-, -, store₃, -, -, hrelease⟩ | ⟨fault, _, _, -, hperform, -⟩ :=
        EndsAmid.of_perform_bind hrest
      · obtain ⟨-, -, store₄, -, -, hunwind⟩ | ⟨fault, _, _, -, hperform, -⟩ :=
          EndsAmid.of_perform_bind hrelease
        · obtain ⟨rfl, -⟩ := hunwind.of_unwind
          exact hpart
        · cases hperform
      · cases hperform
  · cases hperform

end Process

/-! ## Interleavings -/

namespace Threads

variable {σ S V α : Type} {n : Nat} {threads threads' : Threads .single σ S V α n}
  {standing : Nat → Standing n}

/-- A step of another thread does not show in a thread's marks and locks. -/
theorem Orderly.meanwhile_of_step? (h : threads.Orderly standing) {t u : Nat}
    (hstep : threads.step? t = some threads') (hu : u < threads.courses.length) (hne : u ≠ t) :
    threads.store.Meanwhile (.root u) threads'.store := by
  obtain ⟨own, course, own', course', store', hcourse, hmoved, rfl⟩ := exists_of_step? hstep
  obtain ⟨ht, -⟩ := List.getElem?_eq_some_iff.mp hcourse
  have hshows : threads.store.Shows (.root t) ((standing t).under []) := by
    rw [Standing.under_nil]
    exact h.shows ht
  refine (h.shows hu).meanwhile_of_shows ?_
  exact (h.keeps hcourse).shows_other_of_step? hshows hmoved (h.shows hu) fun heq =>
    hne (ThreadId.root_inj.mp heq)

/-- **In every interleaving**, the course of a thread passes through points that it can pass through
amid others. -/
theorem Reaches.amid (h : threads.Orderly standing) (hreaches : threads.Reaches threads') {t : Nat}
    {own : S} {course : Process .single n S V α}
    (hcourse : threads.courses[t]? = some (own, course)) :
    ∃ acts own' course', threads'.courses[t]? = some (own', course') ∧
      Process.Amid (.root t) course threads.store own acts course' threads'.store own' := by
  suffices h' : ∃ standing', threads'.Orderly standing' ∧ ∃ acts own' course',
      threads'.courses[t]? = some (own', course') ∧
        Process.Amid (.root t) course threads.store own acts course' threads'.store own' by
    obtain ⟨-, -, hamid⟩ := h'
    exact hamid
  induction hreaches with
  | refl => exact ⟨standing, h, [], own, course, hcourse, .refl⟩
  | step u _ hstep ih =>
    obtain ⟨standing₁, horderly, acts, own₁, course₁, hcourse₁, hamid⟩ := ih
    obtain ⟨at', horderly'⟩ := horderly.step hstep
    refine ⟨_, horderly', ?_⟩
    obtain ⟨ht, -⟩ := List.getElem?_eq_some_iff.mp hcourse₁
    by_cases hut : t = u
    · subst hut
      obtain ⟨own₂, course₂, own₃, course₃, store₃, hcourse₂, hmoved, rfl⟩ := exists_of_step? hstep
      obtain ⟨rfl, rfl⟩ := Prod.mk.inj (Option.some.inj (hcourse₁.symm.trans hcourse₂))
      exact ⟨_, own₃, course₃, List.getElem?_set_self ht, hamid.step hmoved⟩
    · have hmeanwhile := horderly.meanwhile_of_step? hstep ht hut
      obtain ⟨own₂, course₂, own₃, course₃, store₃, hcourse₂, hmoved, rfl⟩ := exists_of_step? hstep
      refine ⟨acts, own₁, course₁, ?_, hamid.others hmeanwhile⟩
      rw [List.getElem?_set_ne (Ne.symm hut)]
      exact hcourse₁

end Threads

end ShardStore
