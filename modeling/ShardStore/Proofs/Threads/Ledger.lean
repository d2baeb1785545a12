import ShardStore.Proofs.Threads.Log

/-!
# Books and shards

What the books of threads on a shard say holds of the shard. A thread that holds the lock alone, by
its book, is the lock's writer, and the table that it has read is the table that is there
(`Store.Grips`), because no other thread touches either meanwhile. So a step changes the size of the
table, what is open in the book of the thread, and what is counted in step with each other
(`Book.Turns`).
-/

namespace ShardStore

namespace Table

variable {V : Type}

/-- Inserting brings no new key exactly if the key is there. -/
theorem forall_mem_keys_insert_iff {table : Table V} {key : String} {value : V} :
    (∀ other ∈ (table.insert key value).keys, other ∈ table) ↔ key ∈ table := by
  simp only [Std.ExtTreeMap.mem_keys, Std.ExtTreeMap.mem_insert]
  constructor
  · intro h
    exact h key (.inl Std.ReflCmp.compare_self)
  · rintro h other (heq | hmem)
    · rwa [← Std.LawfulEqCmp.eq_of_compare heq]
    · exact hmem

theorem size_insert_add (table : Table V) (key : String) (value : V) :
    (table.insert key value).size + (if key ∈ table then 1 else 0) = table.size + 1 := by
  simp only [Std.ExtTreeMap.size_insert, Std.ExtTreeMap.mem_iff_contains]
  split <;> rfl

theorem size_erase_add (table : Table V) (key : String) :
    (table.erase key).size + (if table.contains key then 1 else 0) = table.size := by
  rw [Std.ExtTreeMap.size_erase]
  split
  · next hcontains =>
    have hne := Std.ExtTreeMap.ne_empty_of_mem (Std.ExtTreeMap.mem_iff_contains.mpr hcontains)
    rw [Ne, Std.ExtTreeMap.eq_empty_iff_size_eq_zero] at hne
    omega
  · rfl

end Table

/-- A thread of this origin holds the lock of a shard alone, and the table is the one that it has
read, if its book says so. -/
def Store.Grips {σ V : Type} {n : Nat} (store : Store σ V n) (i : Fin n) (origin : Nat) :
    Grip V → Prop
  | .free => True
  | .held => ∃ thread, thread.origin = origin ∧ (store.shard i).lock.writer = some thread
  | .saw table => (∃ thread, thread.origin = origin ∧ (store.shard i).lock.writer = some thread) ∧
      store.table i = table

namespace Store.Grips

variable {σ V : Type} {n : Nat} {store store' : Store σ V n} {i : Fin n} {origin : Nat}
  {grip : Grip V}

theorem exists_writer (h : store.Grips i origin grip) (hgrip : grip ≠ .free) :
    ∃ thread, thread.origin = origin ∧ (store.shard i).lock.writer = some thread := by
  cases grip with
  | free => exact absurd rfl hgrip
  | held => exact h
  | saw table => exact h.1

/-- Only the writer and the table matter. -/
theorem congr (h : store.Grips i origin grip)
    (hwriter : (store'.shard i).lock.writer = (store.shard i).lock.writer)
    (htable : store'.table i = store.table i) : store'.Grips i origin grip := by
  cases grip with
  | free => trivial
  | held => rwa [Grips, hwriter]
  | saw table => rwa [Grips, hwriter, htable]

end Store.Grips

namespace Book

variable {V : Type}

/-- How often an event is to be counted for a table that was replaced. -/
def owes (book : Book V) (counter : Counter) : Nat :=
  if book.due = some counter then 1 else 0

end Book

/-- How often an event was counted on a shard, if anything was performed. -/
def countOf {n : Nat} {V : Type} (i : Fin n) (counter : Counter)
    (performed? : Option (Performed n V)) : Nat :=
  performed?.elim 0 fun performed => if performed.counts i counter then 1 else 0

/-- How often a key of a shard was overwritten, if anything was performed. -/
def overwriteOf {σ : Type} {n : Nat} {V : Type} (i : Fin n) (store : Store σ V n)
    (due : Option (Fin n × Counter)) (performed? : Option (Performed n V)) : Nat :=
  performed?.elim 0 fun performed => if performed.overwrites? store due = some i then 1 else 0

theorem overwriteOf_put {σ : Type} {n : Nat} {V : Type} (i : Fin n) (store : Store σ V n)
    (due : Option (Fin n × Counter)) (table : Table V) :
    overwriteOf i store due (some ⟨Unit, .put i table, ()⟩) =
      if due = some (i, .writes) ∧ ∀ key ∈ table.keys, key ∈ store.table i then 1 else 0 := by
  simp only [overwriteOf, Performed.overwrites?, Option.elim_some]
  split <;> simp

/-- What a step of a thread does to shard `i`, to its book on it, and to what is counted. -/
structure Book.Turns {σ V : Type} {n : Nat} (i : Fin n) (origin : Nat) (book : Book V)
    (store : Store σ V n) (performed? : Option (Performed n V)) (due : Option (Fin n × Counter))
    (book' : Book V) (store' : Store σ V n) : Prop where
  grips : store'.Grips i origin book'.grip
  /-- Where another one holds the lock alone, the writer and the table stay. -/
  still : book.grip = .free → (store.shard i).lock.writer ≠ none →
    (store'.shard i).lock.writer = (store.shard i).lock.writer ∧ store'.table i = store.table i ∧
      book'.grip = .free
  /-- Events are counted on credit, and requests give credit. -/
  credit : book'.credit + countOf i .reads performed? + countOf i .writes performed? +
    countOf i .removes performed? ≤ book.credit + countOf i .acquisitions performed?
  /-- The table grows by what is written, but for what is overwritten, and shrinks by what is
  removed. -/
  contents : (store'.table i).size + book'.owes .removes + countOf i .removes performed? +
      overwriteOf i store due performed? + book.owes .writes =
    (store.table i).size + book.owes .removes + countOf i .writes performed? + book'.owes .writes

namespace Book.Turns

variable {σ V : Type} {n : Nat} {i : Fin n} {origin : Nat} {book book' : Book V}
  {store store' : Store σ V n} {due : Option (Fin n × Counter)}

/-- A step that performs nothing and leaves the shard and what is to be counted alone. -/
theorem of_nothing (hgrips : store'.Grips i origin book'.grip)
    (hshard : store'.shard i = store.shard i) (hgrip : book.grip = .free → book'.grip = .free)
    (hcredit : book'.credit ≤ book.credit) (hdue : book'.due = book.due) :
    book.Turns i origin store none due book' store' where
  grips := hgrips
  still hfree _ := ⟨by rw [hshard], by rw [Store.table, Store.table, hshard], hgrip hfree⟩
  credit := hcredit
  contents := by
    rw [Store.table, Store.table, hshard, owes, owes, owes, owes, hdue]
    simp only [countOf, overwriteOf, Option.elim_none]

/-- An action that counts nothing on the shard and leaves its writer, its table and the book. -/
theorem of_quiet {performed : Performed n V} (hgrips : store.Grips i origin book.grip)
    (hwriter : (store'.shard i).lock.writer = (store.shard i).lock.writer)
    (htable : store'.table i = store.table i)
    (hcounts : ∀ counter, performed.counts i counter = false)
    (hover : performed.overwrites? store due ≠ some i) :
    book.Turns i origin store (some performed) due book store' where
  grips := hgrips.congr hwriter htable
  still hfree _ := ⟨hwriter, htable, hfree⟩
  credit := by simp [countOf, hcounts]
  contents := by simp [countOf, overwriteOf, hcounts, hover, htable]

/-- Counting an event. -/
theorem of_bump {counter : Counter} (hgrips : store.Grips i origin book.grip)
    (hgrip : book'.grip = book.grip)
    (hcredit : book'.credit + (if counter = .acquisitions then 0 else 1) ≤
      book.credit + if counter = .acquisitions then 1 else 0)
    (howes : book'.owes .removes + (if counter = .removes then 1 else 0) + book.owes .writes =
      book.owes .removes + (if counter = .writes then 1 else 0) + book'.owes .writes) :
    book.Turns i origin store (some ⟨Unit, .bump i counter, ()⟩) due book'
      (store.modify i fun shard => { shard with tally := shard.tally.bump counter }) where
  grips := by
    rw [hgrip]
    exact hgrips.congr (by simp) (by simp [Store.table])
  still hfree _ := ⟨by simp, by simp [Store.table], hgrip.trans hfree⟩
  credit := by
    cases counter <;> simp_all [countOf, Performed.counts]
  contents := by
    simp only [countOf, overwriteOf, Performed.counts, Performed.overwrites?, Store.table,
      Option.elim_some, Store.shard_modify_self, decide_eq_true_eq, true_and, reduceCtorEq,
      if_false]
    omega

/-- Replacing the table by one that is counted as it should be. -/
theorem of_put {table : Table V} {credit : Nat} {counter : Option Counter}
    (hgrips : store.Grips i origin .held)
    (hsize : table.size + (if counter = some .removes then 1 else 0) +
      (if due = some (i, .writes) ∧ ∀ key ∈ table.keys, key ∈ store.table i then 1 else 0) =
        (store.table i).size + if counter = some .writes then 1 else 0) :
    Book.Turns i origin { credit, grip := .saw (store.table i) } store
      (some ⟨Unit, .put i table, ()⟩) due { credit, grip := .held, due := counter }
      (store.modify i fun shard => { shard with table }) where
  grips := by
    obtain ⟨thread, horigin, hwriter⟩ := hgrips
    exact ⟨thread, horigin, by simpa using hwriter⟩
  still hfree := by cases hfree
  credit := by simp [countOf, Performed.counts]
  contents := by
    simp only [overwriteOf_put, countOf, Performed.counts, owes, Store.table,
      Option.elim_some, Store.shard_modify_self, Bool.false_eq_true, if_false, reduceCtorEq]
    simp only [Store.table] at hsize
    omega

end Book.Turns

/-- Actions that a book allows turn it. -/
theorem Book.Allows.turns {σ V β : Type} {n : Nat} {i : Fin n} {book : Book V}
    {action : Action n V β} {after : β → Book V} {store store' : Store σ V n} {thread : ThreadId}
    {b : β} {due : Option (Fin n × Counter)} (h : book.Allows i action after)
    (hgrips : store.Grips i thread.origin book.grip)
    (hperform : action.perform thread store = (.returned b, store'))
    (hdue : due = some (i, .writes) ↔ (after b).due = some .writes) :
    book.Turns i thread.origin store (some ⟨β, action, b⟩) due (after b) store' := by
  have hquiet : (none : Option (Fin n)) ≠ some i := (Option.some_ne_none i).symm
  cases h with
  | elsewhere hsettled haction =>
    have hshard : store'.shard i = store.shard i := by
      have hframe := Action.shard_perform thread action store haction
      rwa [hperform] at hframe
    refine .of_quiet hgrips (by rw [hshard]) (congrArg Shard.table hshard) (fun counter => ?_) ?_
    · cases action with
      | bump j counted =>
        have hne : j ≠ i := fun heq => haction (congrArg some heq)
        simp [Performed.counts, hne]
      | _ => rfl
    · cases action with
      | put j table =>
        have hne : j ≠ i := fun heq => haction (congrArg some heq)
        simp [Performed.overwrites?, hne]
      | _ => exact hquiet
  | check hsettled =>
    simp only [Action.perform] at hperform
    split at hperform <;> cases hperform
    exact .of_quiet hgrips rfl rfl (fun _ => rfl) hquiet
  | counted hsettled =>
    cases hperform
    exact .of_quiet hgrips rfl rfl (fun _ => rfl) hquiet
  | request credit => cases hperform; exact .of_bump hgrips rfl (Nat.le_refl _) rfl
  | read credit => cases hperform; exact .of_bump hgrips rfl (Nat.le_refl _) rfl
  | count credit grip counted =>
    cases hperform
    refine .of_bump hgrips rfl ?_ ?_
    · cases counted <;> simp only [reduceCtorEq, if_true, if_false] <;> omega
    · cases counted <;> simp [owes]
  | share credit =>
    simp only [Action.perform] at hperform
    split at hperform <;> cases hperform
    exact .of_quiet hgrips (by simp [Lock.take]) (by simp [Store.table]) (fun _ => rfl) hquiet
  | take credit =>
    simp only [Action.perform] at hperform
    split at hperform
    · next hgrants =>
      cases hperform
      have hnone := Lock.writer_eq_none_of_grants hgrants
      refine ⟨⟨thread, rfl, ?_⟩, fun _ hwriter => absurd hnone hwriter, ?_, ?_⟩
      · simp [Lock.take]
      · simp [countOf, Performed.counts]
      · simp [countOf, overwriteOf, Performed.counts, Performed.overwrites?, Store.table, owes]
    · cases hperform
  | look credit =>
    cases hperform
    exact .of_quiet hgrips rfl rfl (fun _ => rfl) hquiet
  | load credit =>
    cases hperform
    refine ⟨⟨hgrips, rfl⟩, fun hfree => (by cases hfree), ?_, ?_⟩
    · simp [countOf, Performed.counts]
    · simp [countOf, overwriteOf, Performed.counts, Performed.overwrites?, owes]
  | insert credit table key value =>
    cases hperform
    obtain ⟨hwriter, rfl⟩ := hgrips
    refine .of_put hwriter ?_
    have hsize := (store.table i).size_insert_add key value
    simp only [hdue, Table.forall_mem_keys_insert_iff, true_and, if_true, reduceCtorEq, if_false,
      Option.some.injEq]
    omega
  | erase credit table key =>
    cases hperform
    obtain ⟨hwriter, rfl⟩ := hgrips
    refine .of_put hwriter ?_
    have hsize := (store.table i).size_erase_add key
    have hnot : due ≠ some (i, .writes) := by
      intro heq
      have hopen := hdue.mp heq
      simp only at hopen
      split at hopen <;> cases hopen
    simp only [hnot, false_and, if_false, Option.ite_none_right_eq_some, and_true, reduceCtorEq,
      Option.some.injEq, and_false]
    exact hsize
  | mark credit grip =>
    cases hperform
    exact .of_quiet hgrips (by simp) (by simp [Store.table]) (fun _ => rfl) hquiet
  | unmark credit grip =>
    cases hperform
    exact .of_quiet hgrips (by simp) (by simp [Store.table]) (fun _ => rfl) hquiet
  | unshare credit =>
    cases hperform
    exact .of_quiet hgrips (by simp [Lock.release]) (by simp [Store.table]) (fun _ => rfl) hquiet
  | release credit grip due hgrip =>
    cases hperform
    refine ⟨trivial, fun hfree => absurd hfree hgrip, ?_, ?_⟩
    · simp [countOf, Performed.counts]
    · simp [countOf, overwriteOf, Performed.counts, Performed.overwrites?, Store.table, owes]

/-- Actions that unwind are allowed only while nothing is open. -/
theorem Book.Allows.settled_of_unwound {σ V β : Type} {n : Nat} {i : Fin n} {book : Book V}
    {action : Action n V β} {after : β → Book V} {store store' : Store σ V n} {thread : ThreadId}
    {fault : Fault} (h : book.Allows i action after)
    (hperform : action.perform thread store = (.unwound fault, store')) : book.Settled := by
  cases h with
  | elsewhere hsettled => exact hsettled
  | check hsettled => exact hsettled
  | counted hsettled => exact hsettled
  | share credit => exact ⟨rfl, rfl⟩
  | take credit => exact ⟨rfl, rfl⟩
  | _ => cases hperform

/-- The part grips the shard as its book says, if the course does. -/
theorem Book.Splits.grips_part {σ V : Type} {n : Nat} {i : Fin n} {origin : Nat}
    {book inner outer : Book V} {store : Store σ V n} (h : book.Splits inner outer)
    (hgrips : store.Grips i origin book.grip) : store.Grips i origin inner.grip := by
  rcases h.grip with ⟨hpart, -⟩ | ⟨hpart, -⟩
  · rw [hpart]
    trivial
  · rwa [hpart]

/-- A step of a part turns the book of the course as it turns the book of the part. -/
theorem Book.Splits.turns {σ V : Type} {n : Nat} {i : Fin n} {origin : Nat}
    {book inner outer inner' : Book V} {store store' : Store σ V n}
    {performed? : Option (Performed n V)} {due : Option (Fin n × Counter)}
    (h : book.Splits inner outer) (hgrips : store.Grips i origin book.grip)
    (hturns : inner.Turns i origin store performed? due inner' store') :
    ∃ book' : Book V, book'.Splits inner' outer ∧
      book.Turns i origin store performed? due book' store' := by
  have hcredit := h.credit
  have hinner := hturns.credit
  have howes (counter : Counter) : book.owes counter = inner.owes counter := by
    rw [owes, owes, h.due]
  by_cases hfree : inner.grip = .free ∧ book.grip ≠ .free
  · -- What follows the part holds the lock alone, and the part cannot take it.
    obtain ⟨hpart, hgrip⟩ := hfree
    have houter : outer.grip = book.grip :=
      h.grip.elim (fun hleft => hleft.2) fun hright => absurd (hright.1.symm.trans hpart) hgrip
    obtain ⟨thread, -, hwriter⟩ := hgrips.exists_writer hgrip
    obtain ⟨hwriter', htable, hpart'⟩ := hturns.still hpart (by rw [hwriter]; exact nofun)
    refine ⟨⟨inner'.credit + outer.credit, book.grip, inner'.due⟩,
      ⟨Nat.le_refl _, .inl ⟨hpart', houter⟩, rfl, h.later⟩, hgrips.congr hwriter' htable,
      fun hfree => absurd hfree hgrip, ?_, ?_⟩
    · dsimp only
      omega
    · rw [howes, howes]
      exact hturns.contents
  · have hgrip : inner.grip = book.grip ∧ outer.grip = .free := by
      rcases h.grip with ⟨hpart, houter⟩ | hright
      · have hbook : book.grip = .free := Classical.byContradiction fun hne => hfree ⟨hpart, hne⟩
        exact ⟨hpart.trans hbook.symm, houter.trans hbook⟩
      · exact hright
    refine ⟨⟨inner'.credit + outer.credit, inner'.grip, inner'.due⟩,
      ⟨Nat.le_refl _, .inr ⟨rfl, hgrip.2⟩, rfl, h.later⟩, hturns.grips,
      fun hbook hwriter => hturns.still (hgrip.1.trans hbook) hwriter, ?_, ?_⟩
    · dsimp only
      omega
    · rw [howes, howes]
      exact hturns.contents

/-- A course that has ended has nothing open. -/
theorem Process.Books.settled_of_ended? {S V α : Type} {mode : Threading} {n : Nat} {i : Fin n}
    {book : Book V} {p : Process mode n S V α} (h : p.Books i (fun _ book => book.Settled) book)
    {result : Except Fault α} (hended : p.ended? = some result) : book.Settled := by
  obtain ⟨value, -, rfl⟩ | ⟨fault, -, rfl⟩ := eq_of_ended? hended <;> exact h

/-- After a part has ended the book is that of what follows. -/
theorem Book.Splits.turns_of_settled {σ V : Type} {n : Nat} {i : Fin n} {origin : Nat}
    {book inner outer : Book V} {store : Store σ V n} (due : Option (Fin n × Counter))
    (h : book.Splits inner outer) (hgrips : store.Grips i origin book.grip)
    (hinner : inner.Settled) :
    book.Turns i origin store none due outer store := by
  have hcredit := h.credit
  refine .of_nothing ?_ rfl (fun hfree => ?_) (by omega) ?_
  · rcases h.grip with ⟨-, houter⟩ | ⟨-, houter⟩
    · rwa [houter]
    · rw [houter]
      trivial
  · rcases h.grip with ⟨-, houter⟩ | ⟨-, houter⟩
    · exact houter.trans hfree
    · exact houter
  · rw [h.later, ← h.due, hinner.2]

/-- **A step of a course keeps its books**, and turns its book on each shard. -/
theorem Process.Books.step? {σ S V α : Type} {mode : Threading} {n : Nat} {i : Fin n}
    {me : ThreadId} {p p' : Process mode n S V α} {final : α → Book V → Prop} {book : Book V}
    {store store' : Store σ V n} {own own' : S} (h : p.Books i final book)
    (hfinal : ∀ a book, final a book → book.due = none)
    (hgrips : store.Grips i me.origin book.grip)
    (hstep : p.step? me store own = some (p', store', own')) :
    ∃ book', p'.Books i final book' ∧
      book.Turns i me.origin store (p.performs? me store) p'.due? book' store' := by
  induction p generalizing me book own own' with
  | done => cases hstep
  | unwind => cases hstep
  | act action next _ =>
    obtain ⟨after, hallows, hnext⟩ := h
    have hshards := performs?_of_step? hstep
    simp only [Process.step?] at hstep
    split at hstep
    · next b _ hperform =>
      cases hstep
      refine ⟨after b, hnext b, ?_⟩
      simp only [performs?, hperform]
      exact hallows.turns hgrips hperform
        ((hnext b).due?_eq_some_iff hfinal (.inl rfl))
    · next hperform =>
      cases hstep
      have hsettled := hallows.settled_of_unwound hperform
      refine ⟨book, hsettled, ?_⟩
      rcases hshards with ⟨hnothing, hsame⟩ | ⟨_, _, _, _, _, hsome, _⟩
      · rw [hnothing]
        exact .of_nothing (by rw [hsettled.1]; trivial) (by rw [Store.shard, hsame]; rfl) id
          (Nat.le_refl _) rfl
      · simp only [performs?, hperform] at hsome
        cases hsome
    · cases hstep
  | withOwn change next _ =>
    cases hstep
    exact ⟨book, h.2 _, .of_nothing hgrips rfl id (Nat.le_refl _) rfl⟩
  | attempt scope part next ihpart _ =>
    obtain ⟨inner, outer, hsplits, hpart, hnext⟩ := h
    simp only [Process.step?] at hstep
    split at hstep
    · next result hended =>
      cases hstep
      refine ⟨outer, hnext result, ?_⟩
      rw [performs?, performs?_of_ended? hended]
      exact hsplits.turns_of_settled _ hgrips (hpart.settled_of_ended? hended)
    · obtain ⟨⟨part', store₁, own₁⟩, hstep', heq⟩ := Option.map_eq_some_iff.mp hstep
      cases heq
      obtain ⟨inner', hpart', hturns⟩ := ihpart hpart (fun _ _ hsettled => hsettled.2)
        (hsplits.grips_part hgrips) hstep'
      obtain ⟨book', hsplits', hturns'⟩ := hsplits.turns hgrips hturns
      exact ⟨book', ⟨inner', outer, hsplits', hpart', hnext⟩, hturns'⟩
  | onThread may fresh part next ihpart _ =>
    obtain ⟨inner, outer, hsplits, hpart, hnext⟩ := h
    simp only [Process.step?] at hstep
    split at hstep
    · next result hended =>
      cases hstep
      refine ⟨outer, hnext result, ?_⟩
      rw [performs?, performs?_of_ended? hended]
      exact hsplits.turns_of_settled _ hgrips (hpart.settled_of_ended? hended)
    · obtain ⟨⟨part', store₁, own₁⟩, hstep', heq⟩ := Option.map_eq_some_iff.mp hstep
      cases heq
      -- The thread that does the part has its origin in common with this one.
      have hinner : store.Grips i me.child.origin inner.grip := hsplits.grips_part hgrips
      obtain ⟨inner', hpart', hturns⟩ :=
        ihpart hpart (fun _ _ hsettled => hsettled.2) hinner hstep'
      obtain ⟨book', hsplits', hturns'⟩ := hsplits.turns hgrips hturns
      exact ⟨book', ⟨inner', outer, hsplits', hpart', hnext⟩, hturns'⟩

end ShardStore
