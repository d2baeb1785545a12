import ShardStore.Process.Frame
import ShardStore.Program

/-!
# What a course counts for what it does

Every course keeps books about a shard. It counts a request before it takes the lock, and later at
most one event more for that request. It replaces the table only while it holds the lock alone, and
only by the table that it has read with a key inserted or erased; what it has to count for that is
the next thing that it does but for giving the lock back.

`Process.Books` says so of what is left of a course, from the `Book` that it has on a shard.
`Program.books_process` is the induction over programs. `Process.due?` reads off a course what it is
about to count, and finds what is open in its book.
-/

namespace ShardStore

/-- How a thread stands to the table of a shard. -/
inductive Grip (V : Type) where
  /-- It does not hold the lock alone. -/
  | free
  /-- It holds the lock alone. -/
  | held
  /-- It holds the lock alone, and has read this table. -/
  | saw (table : Table V)

/-- What a thread has open on a shard. -/
structure Book (V : Type) where
  /-- How many events it may count for the requests that it has counted. -/
  credit : Nat
  grip : Grip V := .free
  /-- What it is to count for having replaced the table. -/
  due : Option Counter := none

namespace Book

variable {V β : Type} {n : Nat}

/-- Nothing is open but events that need not come. -/
def Settled (book : Book V) : Prop :=
  book.grip = .free ∧ book.due = none

theorem Settled.eq {book : Book V} (h : book.Settled) : book = { credit := book.credit } := by
  obtain ⟨credit, grip, due⟩ := book
  obtain ⟨rfl, rfl⟩ := h
  rfl

/-- What may be done with a book on shard `i`, and the book after it, which may depend on the
result. -/
inductive Allows (i : Fin n) : {β : Type} → Book V → Action n V β → (β → Book V) → Prop where
  | elsewhere {β : Type} {book : Book V} (h : book.Settled) {action : Action n V β}
      (haction : action.shard? ≠ some i) : Allows i book action fun _ => book
  | check {book : Book V} (h : book.Settled) : Allows i book (.check i) fun _ => book
  | counted {book : Book V} (h : book.Settled) (counter : Counter) :
      Allows i book (.counted i counter) fun _ => book
  | request (credit : Nat) :
      Allows i { credit } (.bump i .acquisitions) fun _ => { credit := credit + 1 }
  | read (credit : Nat) : Allows i { credit := credit + 1 } (.bump i .reads) fun _ => { credit }
  | count (credit : Nat) (grip : Grip V) (counter : Counter) :
      Allows i { credit := credit + 1, grip, due := some counter } (.bump i counter)
        fun _ => { credit, grip }
  | share (credit : Nat) : Allows i { credit } (.acquire i .shared) fun _ => { credit }
  | take (credit : Nat) :
      Allows i { credit } (.acquire i .exclusive) fun _ => { credit, grip := .held }
  | look (credit : Nat) : Allows i { credit } (.load i) fun _ => { credit }
  | load (credit : Nat) :
      Allows i { credit, grip := .held } (.load i) fun table => { credit, grip := .saw table }
  | insert (credit : Nat) (table : Table V) (key : String) (value : V) :
      Allows i { credit, grip := .saw table } (.put i (table.insert key value))
        fun _ => { credit, grip := .held, due := some .writes }
  | erase (credit : Nat) (table : Table V) (key : String) :
      Allows i { credit, grip := .saw table } (.put i (table.erase key))
        fun _ =>
          { credit, grip := .held, due := if table.contains key then some .removes else none }
  | mark (credit : Nat) (grip : Grip V) :
      Allows i { credit, grip } (.mark i) fun _ => { credit, grip }
  | unmark (credit : Nat) (grip : Grip V) :
      Allows i { credit, grip } (.unmark i) fun _ => { credit, grip }
  | unshare (credit : Nat) : Allows i { credit } (.release i .shared) fun _ => { credit }
  | release (credit : Nat) (grip : Grip V) (due : Option Counter) (hgrip : grip ≠ .free) :
      Allows i { credit, grip, due } (.release i .exclusive) fun _ => { credit, due }

/-- A book divided between a part of a course and what follows the part. What is to be counted is
to be counted in the part. -/
structure Splits (book inner outer : Book V) : Prop where
  credit : inner.credit + outer.credit ≤ book.credit
  grip : inner.grip = .free ∧ outer.grip = book.grip ∨ inner.grip = book.grip ∧ outer.grip = .free
  due : inner.due = book.due
  later : outer.due = none

/-- A book goes undivided to what follows. -/
theorem splits_self {book : Book V} (hdue : book.due = none) :
    book.Splits { credit := 0 } book where
  credit := Nat.le_of_eq (Nat.zero_add _)
  grip := .inl ⟨rfl, rfl⟩
  due := hdue.symm
  later := hdue

/-- The book on shard `i` while the thread deals with shard `j`. -/
def about (i j : Fin n) (book : Book V) (credit : Nat) : Book V :=
  if j = i then book else { credit }

theorem about_closed (i j : Fin n) (credit : Nat) :
    about i j { credit } credit = ({ credit } : Book V) :=
  ite_self _

theorem settled_about (i j : Fin n) (credit base : Nat) :
    (about i j { credit } base : Book V).Settled := by
  unfold about
  split
  · exact ⟨rfl, rfl⟩
  · exact ⟨rfl, rfl⟩

theorem about_due {book : Book V} (h : book.due = none) (i j : Fin n) (credit : Nat) :
    (about i j book credit).due = none := by
  unfold about
  split
  · exact h
  · rfl

/-- What may be done with a book on the shard that a thread deals with may be done with its book on
any shard. -/
theorem Allows.about {i j : Fin n} {book : Book V} {action : Action n V β} {after : β → Book V}
    (h : book.Allows j action after) (credit : Nat)
    (haction : action.shard? = some j := by rfl) :
    (about i j book credit).Allows i action fun b => about i j (after b) credit := by
  by_cases hj : j = i
  · subst hj
    simpa only [Book.about, if_true] using h
  · simp only [Book.about, if_neg hj]
    refine .elsewhere ⟨rfl, rfl⟩ ?_
    rw [haction]
    exact fun heq => hj (Option.some.inj heq)

end Book

namespace Process

variable {S V α β γ : Type} {mode : Threading} {n : Nat} {i : Fin n} {book : Book V}

/-- What is left of a course keeps its book on shard `i`, and returns a result with a book as
`final` says. Faults leave it only while nothing is open. -/
def Books (i : Fin n) :
    {α : Type} → Process mode n S V α → (α → Book V → Prop) → Book V → Prop
  | _, .done value, final, book => final value book
  | _, .unwind _, _, book => book.Settled
  | _, .act action next, final, book =>
    ∃ after, book.Allows i action after ∧ ∀ b, (next b).Books i final (after b)
  | _, .withOwn _ next, final, book => book.Settled ∧ ∀ b, (next b).Books i final book
  | _, .attempt _ part next, final, book =>
    ∃ inner outer, book.Splits inner outer ∧ part.Books i (fun _ book => book.Settled) inner ∧
      ∀ result, (next result).Books i final outer
  | _, .onThread _ _ part next, final, book =>
    ∃ inner outer, book.Splits inner outer ∧ part.Books i (fun _ book => book.Settled) inner ∧
      ∀ result, (next result).Books i final outer

/-- One course after another keeps its book if the second goes on with any book that the first
returns with. -/
theorem Books.bind {p : Process mode n S V α} {f : α → Process mode n S V β}
    {middle : α → Book V → Prop} {final : β → Book V → Prop} (h : p.Books i middle book)
    (hf : ∀ a book, middle a book → (f a).Books i final book) : (p.bind f).Books i final book := by
  induction p generalizing book with
  | done value => exact hf value book h
  | unwind fault => exact h
  | act action next ih =>
    obtain ⟨after, hallows, hnext⟩ := h
    exact ⟨after, hallows, fun b => ih b (hnext b) hf⟩
  | withOwn change next ih => exact ⟨h.1, fun b => ih b (h.2 b) hf⟩
  | attempt scope part next _ ih =>
    obtain ⟨inner, outer, hsplits, hpart, hnext⟩ := h
    exact ⟨inner, outer, hsplits, hpart, fun result => ih result (hnext result) hf⟩
  | onThread may own part next _ ih =>
    obtain ⟨inner, outer, hsplits, hpart, hnext⟩ := h
    exact ⟨inner, outer, hsplits, hpart, fun result => ih result (hnext result) hf⟩

/-- A course returns with its book also as anything wider says. -/
theorem Books.mono {p : Process mode n S V α} {final final' : α → Book V → Prop}
    (h : p.Books i final book) (hfinal : ∀ a book, final a book → final' a book) :
    p.Books i final' book := by
  rw [← p.bind_done]
  exact h.bind hfinal

/-- What follows a course goes on with the book that the course returns with. -/
theorem Books.followed {p : Process mode n S V α} {f : α → Process mode n S V β}
    {after : α → Book V} {final : β → Book V → Prop}
    (h : p.Books i (fun a book => book = after a) book)
    (hf : ∀ a, (f a).Books i final (after a)) : (p.bind f).Books i final book :=
  h.bind fun a _ heq => heq ▸ hf a

theorem books_perform {action : Action n V β} {after : β → Book V}
    (h : book.Allows i action after) :
    (perform action : Process mode n S V β).Books i (fun b book => book = after b) book :=
  ⟨after, h, fun _ => rfl⟩

/-- An action on shard `j` does to the book on shard `i` what it does to that on shard `j`, or
nothing. -/
theorem books_on {j : Fin n} {action : Action n V β} {after : β → Book V} {credit : Nat}
    (h : book.Allows j action after) (haction : action.shard? = some j := by rfl) :
    (perform action : Process mode n S V β).Books i
      (fun b book' => book' = .about i j (after b) credit) (.about i j book credit) :=
  books_perform (h.about credit haction)

/-- A course that keeps its book from any settled one to a settled one. -/
def KeepsBooks (p : Process mode n S V α) : Prop :=
  ∀ (i : Fin n) (book : Book V), book.Settled → p.Books i (fun _ book => book.Settled) book

theorem KeepsBooks.of_closed {p : Process mode n S V α}
    (h : ∀ i credit, p.Books i (fun _ book => book.Settled) { credit }) : p.KeepsBooks := by
  intro i book hsettled
  rw [hsettled.eq]
  exact h i book.credit

theorem KeepsBooks.bind {p : Process mode n S V α} {f : α → Process mode n S V β}
    (h : p.KeepsBooks) (hf : ∀ a, (f a).KeepsBooks) : (p.bind f).KeepsBooks :=
  fun i book hsettled => (h i book hsettled).bind fun a book' => hf a i book'

theorem keepsBooks_done (a : α) : (.done a : Process mode n S V α).KeepsBooks :=
  fun _ _ hsettled => hsettled

/-- Going through a list keeps the book if every element does. -/
theorem keepsBooks_mapM {f : γ → Process mode n S V β} (h : ∀ a, (f a).KeepsBooks)
    (list : List γ) : (list.mapM f).KeepsBooks := by
  induction list with
  | nil => exact keepsBooks_done []
  | cons a list ih =>
    rw [List.mapM_cons]
    exact (h a).bind fun b => ih.bind fun bs => keepsBooks_done (b :: bs)

/-- An action that any settled book allows keeps the book. -/
theorem keepsBooks_perform {j : Fin n} {action : Action n V β} (haction : action.shard? = some j)
    (h : ∀ book : Book V, book.Settled → book.Allows j action fun _ => book) :
    (perform action : Process mode n S V β).KeepsBooks := by
  intro i book hsettled
  by_cases hj : j = i
  · subst hj
    exact ⟨_, h book hsettled, fun _ => hsettled⟩
  · refine ⟨_, .elsewhere hsettled ?_, fun _ => hsettled⟩
    rw [haction]
    exact fun heq => hj (Option.some.inj heq)

theorem keepsBooks_check (j : Fin n) :
    (perform (.check j) : Process mode n S V Unit).KeepsBooks :=
  keepsBooks_perform rfl fun _ hsettled => .check hsettled

theorem keepsBooks_counted (j : Fin n) (counter : Counter) :
    (perform (.counted j counter) : Process mode n S V UInt64).KeepsBooks :=
  keepsBooks_perform rfl fun _ hsettled => .counted hsettled counter

/-! ## What is due -/

/-- What a course counts next, and on which shard, if it does nothing before but give locks back. -/
def due? : {α : Type} → Process mode n S V α → Option (Fin n × Counter)
  | _, .act (.release _ _) next => (next ()).due?
  | _, .act (.bump j counter) _ => some (j, counter)
  | _, .attempt _ part _ => part.due?
  | _, .onThread _ _ part _ => part.due?
  | _, _ => none

/-- A course is about to count a write or a removal exactly when this is open in its book. -/
theorem Books.due?_eq_some_iff {p : Process mode n S V α} {final : α → Book V → Prop}
    (h : p.Books i final book) (hfinal : ∀ a book, final a book → book.due = none)
    {counter : Counter} (hcounter : counter = .writes ∨ counter = .removes) :
    p.due? = some (i, counter) ↔ book.due = some counter := by
  induction p generalizing book with
  | done value => simp [due?, hfinal value book h]
  | unwind fault => simp [due?, h.2]
  | act action next ih =>
    obtain ⟨after, hallows, hnext⟩ := h
    cases hallows with
    | elsewhere hsettled haction =>
      cases action with
      | release j access => exact ih () (hnext ()) hfinal
      | bump j counted =>
        have hne : j ≠ i := fun heq => haction (congrArg some heq)
        simp [due?, hsettled.2, hne]
      | _ => simp [due?, hsettled.2]
    | check hsettled => simp [due?, hsettled.2]
    | counted hsettled => simp [due?, hsettled.2]
    | request credit => rcases hcounter with rfl | rfl <;> simp [due?]
    | read credit => rcases hcounter with rfl | rfl <;> simp [due?]
    | count credit grip counted => simp [due?]
    | unshare credit => exact ih () (hnext ()) hfinal
    | release credit grip due hgrip =>
      have hrest := ih () (hnext ()) hfinal
      exact hrest
    | _ => simp [due?]
  | withOwn change next ih => simp [due?, h.1.2]
  | attempt scope part next ihpart _ =>
    obtain ⟨inner, outer, hsplits, hpart, -⟩ := h
    rw [← hsplits.due]
    exact ihpart hpart fun _ _ hsettled => hsettled.2
  | onThread may own part next ihpart _ =>
    obtain ⟨inner, outer, hsplits, hpart, -⟩ := h
    rw [← hsplits.due]
    exact ihpart hpart fun _ _ hsettled => hsettled.2

/-! ## Requests and scopes -/

/-- How a thread stands to the table of a shard whose lock it has taken. -/
def gripOf : Access → Grip V
  | .shared => .free
  | .exclusive => .held

/-- Entering a shard may be followed by one event for it. -/
theorem books_enter (i j : Fin n) (access : Access) (credit : Nat) :
    (enter j access : Process mode n S V Unit).Books i (fun _ book => book =
      .about i j { credit := credit + 1, grip := gripOf access } credit) { credit } := by
  rw [← Book.about_closed i j]
  refine (books_on (.request credit)).followed fun _ => ?_
  cases access with
  | shared => exact books_on (.share _)
  | exclusive => exact books_on (.take _)

/-- Looking for a mark is not counted. -/
theorem Books.checked {p : Process mode n S V α} {final : α → Book V → Prop} {credit : Nat}
    (h : p.Books i final { credit }) (j : Fin n) :
    ((perform (.check j)).bind fun _ => p).Books i final { credit } := by
  rw [← Book.about_closed i j]
  refine (books_on (.check ⟨rfl, rfl⟩)).followed fun _ => ?_
  rwa [Book.about_closed]

theorem books_request (i j : Fin n) (access : Access) (credit : Nat) :
    (request j access : Process mode n S V Unit).Books i (fun _ book => book =
      .about i j { credit := credit + 1, grip := gripOf access } credit) { credit } :=
  (books_enter i j access credit).checked j

theorem books_collect (i j : Fin n) (credit : Nat) :
    (collect j : Process mode n S V (Table V)).Books i
      (fun _ book => book = .about i j { credit := credit + 1 } credit) { credit } := by
  refine (books_enter i j .shared credit).followed fun _ => ?_
  refine (books_on (.look _)).followed fun table => ?_
  exact (books_on (.unshare _)).followed fun _ => rfl

theorem books_capture (i j : Fin n) (credit : Nat) :
    (capture j : Process mode n S V (Table V)).Books i
      (fun _ book => book = .about i j { credit := credit + 1 } credit) { credit } :=
  (books_collect i j credit).checked j

theorem keepsBooks_collect (j : Fin n) :
    (collect j : Process mode n S V (Table V)).KeepsBooks := by
  refine .of_closed fun i credit => (books_collect i j credit).mono fun _ book heq => ?_
  rw [heq]
  exact Book.settled_about ..

theorem keepsBooks_capture (j : Fin n) :
    (capture j : Process mode n S V (Table V)).KeepsBooks :=
  (keepsBooks_check j).bind fun _ => keepsBooks_collect j

/-- A callback that keeps its book may run under any lock that is held. -/
theorem books_underMark (i j : Fin n) {access : Access} {callback : Process mode n S V β}
    (h : callback.KeepsBooks) (credit base : Nat) (grip : Grip V)
    (haccess : access = .exclusive ↔ grip ≠ .free) :
    (underMark j access callback).Books i
      (fun _ book => book = .about i j { credit, grip } base)
      (.about i j { credit, grip } base) := by
  refine (books_on (.mark _ _)).followed fun _ => ?_
  refine ⟨_, _, Book.splits_self (Book.about_due rfl i j _), h i _ ⟨rfl, rfl⟩, fun result => ?_⟩
  cases result with
  | ok b => exact (books_on (.unmark _ _)).followed fun _ => rfl
  | error fault =>
    refine (books_on (.unmark _ _)).followed fun _ => ?_
    cases access with
    | shared =>
      obtain rfl : grip = .free :=
        Classical.byContradiction fun hne => nomatch haccess.mpr hne
      refine (books_on (.unshare _)).followed fun _ => ?_
      exact Book.settled_about ..
    | exclusive =>
      have hgrip := haccess.mp rfl
      refine (books_on (.release _ grip none hgrip)).followed fun _ => ?_
      exact Book.settled_about ..

/-- Asking the router keeps any book. -/
theorem books_route (i : Fin n) (key : String) (credit : Nat) :
    (perform (.route key) : Process mode n S V (Fin n)).Books i
      (fun _ book => book = { credit }) { credit } :=
  books_perform (.elsewhere ⟨rfl, rfl⟩ nofun)

theorem keepsBooks_update {key : String} {callback : Option V → Process mode n S V (V × β)}
    (h : ∀ old, (callback old).KeepsBooks) : (update key callback).KeepsBooks := by
  refine .of_closed fun i credit => ?_
  refine (books_route i key _).followed fun j => ?_
  refine (books_request i j .exclusive _).followed fun _ => ?_
  refine (books_on (.load _)).followed fun table => ?_
  refine (books_underMark i j (h table[key]?) _ _ (.saw table)
    ⟨fun _ => nofun, fun _ => rfl⟩).followed fun stored => ?_
  refine (books_on (.insert _ table key stored.1)).followed fun _ => ?_
  refine (books_on (.count _ .held .writes)).followed fun _ => ?_
  refine (books_on (.release _ .held none nofun)).followed fun _ => ?_
  exact Book.settled_about ..

theorem keepsBooks_visitShard {callback : String → V → Process mode n S V β}
    (h : ∀ key value, (callback key value).KeepsBooks) (j : Fin n) :
    (visitShard callback j).KeepsBooks := by
  refine .of_closed fun i credit => ?_
  refine (books_request i j .shared _).followed fun _ => ?_
  refine (books_on (.look _)).followed fun table => ?_
  refine (books_underMark i j (keepsBooks_mapM (fun entry => ?_) _) _ _ .free
    (by simp)).followed fun visited => ?_
  · exact (h entry.1 entry.2).bind fun b => keepsBooks_done (entry, b)
  · refine (books_on (.unshare _)).followed fun _ => ?_
    exact Book.settled_about ..

theorem keepsBooks_visit {callback : String → V → Process mode n S V β}
    (h : ∀ key value, (callback key value).KeepsBooks) : (visit callback).KeepsBooks :=
  (keepsBooks_mapM (keepsBooks_visitShard h) _).bind fun visited => keepsBooks_done visited.flatten

theorem keepsBooks_captureAll :
    (captureAll : Process mode n S V (List (Table V))).KeepsBooks :=
  keepsBooks_mapM keepsBooks_capture _

theorem keepsBooks_checkAll : (checkAll : Process mode n S V Unit).KeepsBooks := by
  have hlist (list : List (Fin n)) :
      (list.forM fun i => (perform (.check i) : Process mode n S V Unit)).KeepsBooks := by
    induction list with
    | nil => exact keepsBooks_done ()
    | cons i list ih => exact (keepsBooks_check i).bind fun _ => ih
  exact hlist _

theorem keepsBooks_collectAll :
    (collectAll : Process mode n S V (List (Table V))).KeepsBooks :=
  keepsBooks_checkAll.bind fun _ => keepsBooks_mapM keepsBooks_collect _

end Process

/-! ## Programs -/

namespace Operation

open Process

variable {S V β : Type} {mode : Threading} {n : Nat}

theorem keepsBooks_lookup (key : String) :
    (lookup key : Process mode n S V (Option V)).KeepsBooks := by
  refine .of_closed fun i credit => ?_
  refine (books_route i key _).followed fun j => ?_
  refine (books_capture i j _).followed fun table => ?_
  refine (books_on (.read _)).followed fun _ => ?_
  exact Book.settled_about ..

theorem keepsBooks_removal (key : String) :
    (removal key : Process mode n S V (Option V)).KeepsBooks := by
  refine .of_closed fun i credit => ?_
  refine (books_route i key _).followed fun j => ?_
  refine (books_request i j .exclusive _).followed fun _ => ?_
  refine (books_on (.load _)).followed fun table => ?_
  refine (books_on (.erase _ table key)).followed fun _ => ?_
  refine (books_on (.release _ .held _ nofun)).followed fun _ => ?_
  simp only
  split
  · refine (books_on (.count _ .free .removes)).followed fun _ => ?_
    exact Book.settled_about ..
  · exact Book.settled_about ..

theorem keepsBooks_countAll : (countAll : Process mode n S V Nat).KeepsBooks :=
  keepsBooks_captureAll.bind fun _ => keepsBooks_done _

theorem keepsBooks_readTally (i : Fin n) :
    (readTally i : Process mode n S V Tally).KeepsBooks :=
  (keepsBooks_counted i .reads).bind fun _ => (keepsBooks_counted i .writes).bind fun _ =>
    (keepsBooks_counted i .removes).bind fun _ =>
      (keepsBooks_counted i .acquisitions).bind fun _ => keepsBooks_done _

/-- Every operation keeps its books. -/
theorem keepsBooks_process (operation : Operation V β) :
    (operation.process : Process mode n S V β).KeepsBooks := by
  cases operation with
  | set key value =>
    refine .of_closed fun i credit => ?_
    refine (books_route i key _).followed fun j => ?_
    refine (books_request i j .exclusive _).followed fun _ => ?_
    refine (books_on (.load _)).followed fun table => ?_
    refine (books_on (.insert _ table key value)).followed fun _ => ?_
    refine (books_on (.release _ .held _ nofun)).followed fun _ => ?_
    refine (books_on (.count _ .free .writes)).mono fun _ _ heq => ?_
    rw [heq]
    exact Book.settled_about ..
  | setIfAbsent key value =>
    refine .of_closed fun i credit => ?_
    refine (books_route i key _).followed fun j => ?_
    refine (books_request i j .exclusive _).followed fun _ => ?_
    refine (books_on (.load _)).followed fun table => ?_
    split
    · refine (books_on (.release _ (.saw table) none nofun)).followed fun _ => ?_
      exact Book.settled_about ..
    · refine (books_on (.insert _ table key value)).followed fun _ => ?_
      refine (books_on (.count _ .held .writes)).followed fun _ => ?_
      refine (books_on (.release _ .held none nofun)).followed fun _ => ?_
      exact Book.settled_about ..
  | get key => exact keepsBooks_lookup key
  | has key => exact (keepsBooks_lookup key).bind fun found => keepsBooks_done found.isSome
  | remove key => exact (keepsBooks_removal key).bind fun _ => keepsBooks_done ()
  | pop key => exact keepsBooks_removal key
  | shardIndex key =>
    refine .of_closed fun i credit => ?_
    exact (books_route i key _).followed fun j => ⟨rfl, rfl⟩
  | shardCount => exact keepsBooks_done n
  | count => exact keepsBooks_countAll
  | keys =>
    exact keepsBooks_countAll.bind fun _ => keepsBooks_collectAll.bind fun _ => keepsBooks_done _
  | items =>
    exact keepsBooks_countAll.bind fun _ => keepsBooks_captureAll.bind fun _ => keepsBooks_done _
  | stats =>
    exact keepsBooks_captureAll.bind fun _ =>
      (keepsBooks_mapM keepsBooks_readTally _).bind fun _ => keepsBooks_done _
  | snapshot => exact keepsBooks_collectAll.bind fun _ => keepsBooks_done _

end Operation

/-- **Every program keeps its books.** -/
theorem Program.keepsBooks_process {S V α : Type} {mode : Threading} {n : Nat}
    (program : Program mode S V α) : (program.process : Process mode n S V α).KeepsBooks := by
  induction program with
  | done value => exact Process.keepsBooks_done value
  | unwind fault => exact fun i book hsettled => hsettled
  | call operation next ih => exact operation.keepsBooks_process.bind ih
  | withOwn change next ih =>
    exact fun i book hsettled => ⟨hsettled, fun b => ih b i book hsettled⟩
  | update key callback next ihcallback ih =>
    exact (Process.keepsBooks_update ihcallback).bind ih
  | visit callback next ihcallback ih => exact (Process.keepsBooks_visit ihcallback).bind ih
  | attempt part next ihpart ih =>
    exact fun i book hsettled => ⟨_, book, Book.splits_self hsettled.2, ihpart i _ ⟨rfl, rfl⟩,
      fun result => ih result i book hsettled⟩
  | onThread may own part next ihpart ih =>
    exact fun i book hsettled => ⟨_, book, Book.splits_self hsettled.2, ihpart i _ ⟨rfl, rfl⟩,
      fun result => ih result i book hsettled⟩

end ShardStore
