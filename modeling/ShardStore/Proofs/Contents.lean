import Mathlib.Algebra.GroupWithZero.Nat
import Mathlib.Algebra.BigOperators.Group.List.Basic
import ShardStore.Proofs.Threads.Counts
import ShardStore.Proofs.Threads.Ledger

/-!
# Counters bound the contents

Any number of threads run programs on a new store, and their actions are interleaved in any way that
the locks admit. No shard ever counts more reads, writes and removals than requests for its lock. As
long as no thread is to count a change of its table, its removals and its entries together are its
writes but for those that have overwritten a key. So no tally that a thread is told adds up to more
than its requests, though other threads count on while it is read.

`Threads.Balanced` is the invariant: the books of the threads make up the difference.
-/

namespace ShardStore

variable {σ S V α : Type} {mode : Threading} {n : Nat}

/-! ## Counting along a log -/

theorem counted_add (log : List (Entry n V)) (i : Fin n) (counter : Counter)
    (performed? : Option (Performed n V)) (overwrote : Performed n V → Option (Fin n)) :
    counted (log ++ (performed?.map fun performed =>
        { performed, overwrote := overwrote performed }).toList) i counter =
      counted log i counter + countOf i counter performed? := by
  cases performed? with
  | none => simp [counted, countOf]
  | some performed => simp [counted, countOf, List.countP_append, List.countP_singleton]

theorem overwritten_add (log : List (Entry n V)) (i : Fin n) (store : Store σ V n)
    (due : Option (Fin n × Counter)) (performed? : Option (Performed n V)) :
    overwritten (log ++ (performed?.map fun performed =>
        { performed, overwrote := performed.overwrites? store due }).toList) i =
      overwritten log i + overwriteOf i store due performed? := by
  cases performed? with
  | none => simp [overwritten, overwriteOf]
  | some performed => simp [overwritten, overwriteOf, List.countP_append, List.countP_singleton]

/-- A tally grows by what is counted. -/
theorem Action.get_tally_perform {β : Type} {action : Action n V β} {thread : ThreadId}
    {store store' : Store σ V n} {b : β} (h : action.perform thread store = (.returned b, store'))
    (i : Fin n) (counter : Counter) :
    (store'.shard i).tally.get counter =
      (store.shard i).tally.get counter + .ofNat (countOf i counter (some ⟨β, action, b⟩)) := by
  have quiet (j : Fin n) {change : Shard V → Shard V}
      (hchange : ∀ shard, (change shard).tally = shard.tally) :
      ((store.modify j change).shard i).tally.get counter =
        (store.shard i).tally.get counter + .ofNat 0 := by
    rw [Store.shard_modify]
    split <;> simp [hchange]
  cases action with
  | route key =>
    have hshard := shard_perform thread (.route key) store (fun h : none = some i => nomatch h)
    rw [h] at hshard
    simp [hshard, countOf, Performed.counts]
  | check j =>
    simp only [perform] at h
    split at h <;> cases h
    simp [countOf, Performed.counts]
  | bump j counted =>
    cases h
    by_cases hj : j = i
    · subst hj
      rw [Store.shard_modify_self, Tally.get_bump]
      simp only [countOf, Performed.counts, Option.elim_some, true_and, decide_eq_true_eq,
        eq_comm (a := counted)]
      split <;> simp
    · rw [Store.shard_modify_ne _ hj]
      simp [countOf, Performed.counts, hj]
  | acquire j access =>
    simp only [perform] at h
    split at h <;> cases h
    exact quiet j fun _ => rfl
  | release j access => cases h; exact quiet j fun _ => rfl
  | mark j => cases h; exact quiet j fun _ => rfl
  | unmark j => cases h; exact quiet j fun _ => rfl
  | load j => cases h; simp [countOf, Performed.counts]
  | put j table => cases h; exact quiet j fun _ => rfl
  | counted j other => cases h; simp [countOf, Performed.counts]

/-- A step of a course lets a tally grow by what it counts. -/
theorem Process.get_tally_step? {me : ThreadId} {p p' : Process mode n S V α}
    {store store' : Store σ V n} {own own' : S} (h : p.step? me store own = some (p', store', own'))
    (i : Fin n) (counter : Counter) :
    (store'.shard i).tally.get counter = (store.shard i).tally.get counter +
      .ofNat (countOf i counter (p.performs? me store)) := by
  rcases performs?_of_step? h with ⟨hnothing, hsame⟩ | ⟨_, _, _, _, _, hsome, hperform⟩
  · rw [hnothing, Store.shard, Store.shard, hsame]
    simp [countOf]
  · rw [hsome]
    exact Action.get_tally_perform hperform i counter

/-! ## What is kept from step to step -/

/-- What another thread grips stays in its grip. -/
theorem Book.Turns.grips_other {i : Fin n} {origin origin' : Nat} {book book' : Book V}
    {store store' : Store σ V n} {performed? : Option (Performed n V)}
    {due : Option (Fin n × Counter)} {grip : Grip V}
    (h : book.Turns i origin store performed? due book' store')
    (hgrips : store.Grips i origin book.grip) (hother : store.Grips i origin' grip)
    (hne : origin' ≠ origin) : store'.Grips i origin' grip := by
  by_cases hfree : grip = .free
  · rw [hfree]
    trivial
  obtain ⟨writer, horigin', hwriter⟩ := hother.exists_writer hfree
  -- The lock has one writer, so the thread that makes the step has no grip on the shard.
  have hbook : book.grip = .free := by
    refine Classical.byContradiction fun hgrip => ?_
    obtain ⟨thread, horigin, hthread⟩ := hgrips.exists_writer hgrip
    rw [hthread, Option.some.injEq] at hwriter
    exact hne (by rw [← horigin', ← horigin, hwriter])
  obtain ⟨hwriter', htable, -⟩ := h.still hbook (by rw [hwriter]; exact nofun)
  exact hother.congr hwriter' htable

namespace Process

/-- How the course of a thread begins: as that of a program, or as that of a worker that reads one
table for a traversal. The thread that has asked for the traversal goes on as any program does. -/
inductive Begins : Process mode n S V α → Prop where
  | program (program : Program mode S V α) : Begins program.process
  | reader (i : Fin n) (value : α) : Begins ((capture i).bind fun _ => .done value)

theorem Begins.keepsBooks {course : Process mode n S V α} (h : course.Begins) :
    course.KeepsBooks := by
  cases h with
  | program program => exact program.keepsBooks_process
  | reader i value => exact (keepsBooks_capture i).bind fun _ => keepsBooks_done value

end Process

namespace Threads

/-- What shard `i` counts and contains, by the log of what threads have done and by what the threads
have open in their books. -/
structure Balanced (i : Fin n) (log : List (Entry n V)) (threads : Threads mode σ S V α n)
    (books : List (Book V)) : Prop where
  kept : ∀ {t : Nat} {own : S} {course : Process mode n S V α},
    threads.courses[t]? = some (own, course) → ∃ book, books[t]? = some book ∧
      course.Books i (fun _ book => book.Settled) book ∧ threads.store.Grips i t book.grip
  length : books.length = threads.courses.length
  tally : ∀ counter, (threads.store.shard i).tally.get counter = .ofNat (counted log i counter)
  credit : counted log i .reads + counted log i .writes + counted log i .removes +
    (books.map Book.credit).sum ≤ counted log i .acquisitions
  contents : counted log i .removes + (books.map (Book.owes · .removes)).sum +
      (threads.store.table i).size + overwritten log i =
    counted log i .writes + (books.map (Book.owes · .writes)).sum

namespace Balanced

variable {threads threads' : Threads mode σ S V α n} {i : Fin n} {log : List (Entry n V)}
  {books : List (Book V)}

/-- A new store and threads at their beginnings are balanced. -/
theorem start (hempty : threads.store.shard i = {})
    (hbegins : ∀ course ∈ threads.courses, course.2.Begins) :
    threads.Balanced i [] (threads.courses.map fun _ => { credit := 0 }) where
  kept {t own course} hcourse := by
    refine ⟨{ credit := 0 }, by rw [List.getElem?_map, hcourse]; rfl, ?_, trivial⟩
    exact (hbegins _ (List.mem_of_getElem? hcourse)).keepsBooks i _ ⟨rfl, rfl⟩
  length := List.length_map _
  tally counter := by
    rw [hempty]
    cases counter <;> rfl
  credit := by simp [counted]
  contents := by simp [counted, overwritten, Store.table, hempty, Book.owes]

/-- **A step keeps the balance.** -/
theorem step {t : Nat} (h : threads.Balanced i log books)
    (hstep : threads.step? t = some threads') :
    ∃ books', threads'.Balanced i (log ++ (threads.note? threads' t).toList) books' := by
  unfold Threads.step? at hstep
  split at hstep
  · cases hstep
  next own course hcourse =>
    obtain ⟨⟨course', store', own'⟩, hmoves, rfl⟩ := Option.map_eq_some_iff.mp hstep
    obtain ⟨book, hbook, hbooks, hgrips⟩ := h.kept hcourse
    obtain ⟨book', hbooks', hturns⟩ := hbooks.step? (fun _ _ hsettled => hsettled.2) hgrips hmoves
    rw [note?_eq hcourse]
    refine ⟨books.set t book', ?_, ?_, fun counter => ?_, ?_, ?_⟩
    · intro u own₁ course₁ hu
      by_cases heq : u = t
      · subst heq
        rw [List.getElem?_set_self (List.getElem?_eq_some_iff.mp hcourse).1] at hu
        cases hu
        exact ⟨book', List.getElem?_set_self (List.getElem?_eq_some_iff.mp hbook).1, hbooks',
          hturns.grips⟩
      · rw [List.getElem?_set_ne (Ne.symm heq)] at hu
        obtain ⟨other, hother, hkeeps, hothers⟩ := h.kept hu
        refine ⟨other, ?_, hkeeps, hturns.grips_other hgrips hothers heq⟩
        rwa [List.getElem?_set_ne (Ne.symm heq)]
    · simp only [List.length_set, h.length]
    · rw [Process.get_tally_step? hmoves, h.tally, counted_add, UInt64.ofNat_add]
    · obtain ⟨others, hsum, hset⟩ := exists_sum_set Book.credit hbook
      have hcredit := h.credit
      have hstep := hturns.credit
      rw [hsum] at hcredit
      simp only [counted_add, hset]
      omega
    · obtain ⟨writes, hwrites, hwrites'⟩ := exists_sum_set (Book.owes · .writes) hbook
      obtain ⟨removes, hremoves, hremoves'⟩ := exists_sum_set (Book.owes · .removes) hbook
      have hcontents := h.contents
      have hstep := hturns.contents
      rw [hwrites, hremoves] at hcontents
      simp only [counted_add, overwritten_add, hwrites', hremoves']
      omega

end Balanced

variable {start threads : Threads mode σ S V α n} {i : Fin n} {log : List (Entry n V)}

end Threads

namespace Process

end Process

namespace Threads

variable {config : Config σ} {start threads : Threads mode σ S V α config.shards}
  {log : List (Entry config.shards V)}

/-- Steps of certain threads, one after another, with their log; a thread that cannot go on is
passed over. -/
def record (start : Threads mode σ S V α n) (schedule : List Nat) :
    List (Entry n V) × Threads mode σ S V α n :=
  schedule.foldl (fun recorded t => (recorded.2.step? t).elim recorded fun threads =>
    (recorded.1 ++ (recorded.2.note? threads t).toList, threads)) ([], start)

theorem logs_record (start : Threads mode σ S V α n) (schedule : List Nat) :
    start.Logs (start.record schedule).1 (start.record schedule).2 := by
  refine List.foldlRecOn (motive := fun recorded : List (Entry n V) × Threads mode σ S V α n =>
    start.Logs recorded.1 recorded.2) schedule _ .start fun recorded h t _ => ?_
  cases hstep : recorded.2.step? t with
  | none => exact h
  | some threads => exact h.step t hstep

end Threads

end ShardStore
