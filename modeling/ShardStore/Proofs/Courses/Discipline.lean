import ShardStore.Program

/-!
# The order of checks, locks and marks

Every course keeps to one order. It takes a lock only for a shard on which it has looked for its own
marks since it last marked one, it marks a shard only while it holds the lock, and it takes mark and
lock back in the opposite order, on both ways out of a callback. What it does inside a callback
keeps to the same order again, on top of the scopes that are already open.

`Process.Keeps` says so of what is left of a course, from the `Standing` at which it is to the one
at which it returns. `Program.keeps_process` is the induction over programs.
-/

namespace ShardStore

/-- How far a thread is with the shards that it deals with outside of its open scopes. -/
inductive Stage (n : Nat) where
  /-- It holds the lock of none, and found no mark of its own on some. -/
  | cleared (found : List (Fin n))
  /-- It holds the lock of one, and found no mark of its own on some. -/
  | holding (i : Fin n) (access : Access) (found : List (Fin n))
deriving DecidableEq, Repr

namespace Stage

variable {n : Nat}

/-- It deals with no shard. -/
abbrev idle : Stage n := .cleared []

/-- The lock that is held at a stage. -/
def holds : Stage n → List (Fin n × Access)
  | .cleared _ => []
  | .holding i access _ => [(i, access)]

/-- The shards that were found without a mark. -/
def found : Stage n → List (Fin n)
  | .cleared found => found
  | .holding _ _ found => found

end Stage

/-- Where a thread is: the shards that it has locked and marked for callbacks, innermost first, and
how far it is with another one. -/
structure Standing (n : Nat) where
  stage : Stage n
  scopes : List (Fin n × Access)

/-- Whether an action is one that calls start with, before they hold any lock of their own. -/
def Action.starts {V β : Type} {n : Nat} : Action n V β → Bool
  | .route _ => true
  | .check _ => true
  | _ => false

/-- The lock that an action asks for. -/
def Action.asksFor? {V β : Type} {n : Nat} : Action n V β → Option (Fin n × Access)
  | .acquire i access => some (i, access)
  | _ => none

namespace Standing

variable {V β : Type} {n : Nat}

/-- Outside of all scopes, dealing with no shard. -/
def idle : Standing n := ⟨.idle, []⟩

/-- The standing inside further scopes. -/
def under (standing : Standing n) (outer : List (Fin n × Access)) : Standing n :=
  { standing with scopes := standing.scopes ++ outer }

/-- The locks that are held. -/
def holds (standing : Standing n) : List (Fin n × Access) :=
  standing.stage.holds ++ standing.scopes

/-- The shards that are marked. -/
def calls (standing : Standing n) : List (Fin n) :=
  standing.scopes.map Prod.fst

theorem under_nil (standing : Standing n) : standing.under [] = standing := by
  rw [under, List.append_nil]

theorem under_under (standing : Standing n) (outer outer' : List (Fin n × Access)) :
    (standing.under outer).under outer' = standing.under (outer ++ outer') := by
  simp only [under, List.append_assoc]

theorem scopes_eq_nil {standing : Standing n} (h : standing.holds = []) :
    standing.scopes = [] :=
  (List.append_eq_nil_iff.mp h).2

/-- What may be done at a standing, and the standing that it leads to. -/
inductive Allows : {β : Type} → Standing n → Action n V β → Standing n → Prop where
  | route {standing : Standing n} (h : standing.holds = []) (key : String) :
      Allows standing (.route key) .idle
  | check {standing : Standing n} (h : standing.holds = []) {found : List (Fin n)}
      (hfound : found ⊆ standing.stage.found) (i : Fin n) :
      Allows standing (.check i) ⟨.cleared (i :: found), []⟩
  | counted {standing : Standing n} (h : standing.holds = []) (i : Fin n) (counter : Counter) :
      Allows standing (.counted i counter) .idle
  | bumpCleared (i : Fin n) {found : List (Fin n)} (hi : i ∈ found) (counter : Counter) :
      Allows ⟨.cleared found, []⟩ (.bump i counter) ⟨.cleared found, []⟩
  | acquire (i : Fin n) {found : List (Fin n)} (hi : i ∈ found) (access : Access) :
      Allows ⟨.cleared found, []⟩ (.acquire i access) ⟨.holding i access found, []⟩
  | bumpHolding (i : Fin n) (access : Access) (found : List (Fin n)) (counter : Counter) :
      Allows ⟨.holding i access found, []⟩ (.bump i counter) ⟨.holding i access found, []⟩
  | load (i : Fin n) (access : Access) (found : List (Fin n)) :
      Allows ⟨.holding i access found, []⟩ (.load i) ⟨.holding i access found, []⟩
  | put (i : Fin n) (found : List (Fin n)) (table : Table V) :
      Allows ⟨.holding i .exclusive found, []⟩ (.put i table) ⟨.holding i .exclusive found, []⟩
  | mark (i : Fin n) (access : Access) (found : List (Fin n)) :
      Allows ⟨.holding i access found, []⟩ (.mark i) ⟨.idle, [(i, access)]⟩
  | unmark (i : Fin n) (access : Access) :
      Allows ⟨.idle, [(i, access)]⟩ (.unmark i) ⟨.holding i access [], []⟩
  | release (i : Fin n) (access : Access) (found : List (Fin n)) :
      Allows ⟨.holding i access found, []⟩ (.release i access) ⟨.cleared (i :: found), []⟩

/-- A thread that holds nothing may do what one may do that deals with no shard. -/
theorem Allows.of_idle {standing standing' : Standing n} {action : Action n V β}
    (h : Allows .idle action standing') (hfree : standing.holds = []) :
    Allows standing action standing' := by
  cases h with
  | route _ key => exact .route hfree key
  | check _ hfound i => exact .check hfree (fun _ hmem => absurd (hfound hmem) List.not_mem_nil) i
  | counted _ i counter => exact .counted hfree i counter
  | bumpCleared _ hi => cases hi
  | acquire _ hi => cases hi

/-- A thread starts a call only while it holds nothing. -/
theorem Allows.holds_of_starts {standing standing' : Standing n} {action : Action n V β}
    (h : standing.Allows action standing') (hstarts : action.starts = true) :
    standing.holds = [] := by
  cases h with
  | route hfree => exact hfree
  | check hfree => exact hfree
  | _ => cases hstarts

/-- A thread asks for a lock only where it has found no mark of its own, and while it holds none. -/
theorem Allows.eq_cleared_of_asksFor? {standing standing' : Standing n} {action : Action n V β}
    (h : standing.Allows action standing') {i : Fin n} {access : Access}
    (hasks : action.asksFor? = some (i, access)) :
    ∃ found, i ∈ found ∧ standing = ⟨.cleared found, []⟩ := by
  cases h with
  | acquire _ hi =>
    cases hasks
    exact ⟨_, hi, rfl⟩
  | _ => cases hasks

end Standing

namespace Process

variable {S V α β γ : Type} {mode : Threading} {n : Nat}

/-- What is left of a course keeps to the order from the first standing on, and returns at the
last. Faults leave it only while it holds nothing. -/
def Keeps : {α : Type} → Process mode n S V α → Standing n → Standing n → Prop
  | _, .done _, standing, final => standing = final ∨ standing.holds = [] ∧ final = .idle
  | _, .unwind _, standing, _ => standing.holds = []
  | _, .act action next, standing, final =>
    ∃ standing', standing.Allows action standing' ∧ ∀ b, (next b).Keeps standing' final
  | _, .withOwn _ next, standing, final =>
    standing.holds = [] ∧ ∀ b, (next b).Keeps standing final
  | _, .attempt none part next, standing, final =>
    part.Keeps standing .idle ∧ ∀ result, (next result).Keeps .idle final
  | _, .attempt (some i) part next, standing, final =>
    ∃ inner access, standing = inner.under [(i, access)] ∧ part.Keeps inner .idle ∧
      ∀ result, (next result).Keeps (Standing.idle.under [(i, access)]) final
  | _, .onThread _ _ _ _, _, _ => False

/-- A thread that holds nothing may go on as one that deals with no shard. -/
theorem Keeps.of_idle {p : Process mode n S V α} {standing final : Standing n}
    (h : p.Keeps .idle final) (hfree : standing.holds = []) : p.Keeps standing final := by
  induction p generalizing final with
  | done value =>
    obtain rfl | ⟨-, rfl⟩ := h
    · exact .inr ⟨hfree, rfl⟩
    · exact .inr ⟨hfree, rfl⟩
  | unwind fault => exact hfree
  | act action next _ =>
    obtain ⟨standing', hallows, hnext⟩ := h
    exact ⟨standing', hallows.of_idle hfree, hnext⟩
  | withOwn change next ih => exact ⟨hfree, fun b => ih b (h.2 b)⟩
  | attempt scope part next ihpart _ =>
    cases scope with
    | none => exact ⟨ihpart h.1, h.2⟩
    | some i =>
      -- The scope that the part needs is open at the first standing, and there is none.
      obtain ⟨inner, access, hscopes, -⟩ := h
      have hnil := congrArg Standing.scopes hscopes
      exact absurd hnil.symm (List.append_ne_nil_of_right_ne_nil _ (List.cons_ne_nil _ _))
  | onThread => exact h.elim

/-- One course after another keeps to the order if the second starts where the first returns. -/
theorem Keeps.bind {p : Process mode n S V α} {f : α → Process mode n S V β}
    {standing middle final : Standing n} (h : p.Keeps standing middle)
    (hf : ∀ a, (f a).Keeps middle final) : (p.bind f).Keeps standing final := by
  induction p generalizing standing middle with
  | done value =>
    obtain rfl | ⟨hfree, rfl⟩ := h
    · exact hf value
    · exact (hf value).of_idle hfree
  | unwind fault => exact h
  | act action next ih =>
    obtain ⟨standing', hallows, hnext⟩ := h
    exact ⟨standing', hallows, fun b => ih b (hnext b) hf⟩
  | withOwn change next ih => exact ⟨h.1, fun b => ih b (h.2 b) hf⟩
  | attempt scope part next _ ih =>
    cases scope with
    | none => exact ⟨h.1, fun result => ih result (h.2 result) hf⟩
    | some i =>
      obtain ⟨inner, access, hscopes, hpart, hnext⟩ := h
      exact ⟨inner, access, hscopes, hpart, fun result => ih result (hnext result) hf⟩
  | onThread => exact h.elim

/-- A course that returns holding nothing returns dealing with no shard. -/
theorem Keeps.ease {p : Process mode n S V α} {standing final : Standing n}
    (h : p.Keeps standing final) (hfree : final.holds = []) : p.Keeps standing .idle := by
  have hbind : (p.bind .done).Keeps standing .idle := h.bind fun _ => .inr ⟨hfree, rfl⟩
  rwa [bind_done] at hbind

theorem keeps_perform {action : Action n V β} {standing standing' : Standing n}
    (h : standing.Allows action standing') :
    (perform action : Process mode n S V β).Keeps standing standing' :=
  ⟨standing', h, fun _ => .inl rfl⟩

/-- Going through a list keeps to the order if every element does. -/
theorem keeps_mapM {f : γ → Process mode n S V β} (h : ∀ a, (f a).Keeps .idle .idle)
    (list : List γ) : (list.mapM f).Keeps .idle .idle := by
  induction list with
  | nil => exact .inl rfl
  | cons a list ih =>
    rw [List.mapM_cons]
    exact (h a).bind fun b => ih.bind fun bs => .inl rfl

/-! ## Requests and scopes -/

theorem keeps_check (i : Fin n) (found : List (Fin n)) :
    (perform (.check i) : Process mode n S V Unit).Keeps ⟨.cleared found, []⟩
      ⟨.cleared (i :: found), []⟩ :=
  keeps_perform (.check rfl (List.Subset.refl found) i)

theorem keeps_enter {i : Fin n} {found : List (Fin n)} (hi : i ∈ found) (access : Access) :
    (enter i access : Process mode n S V Unit).Keeps ⟨.cleared found, []⟩
      ⟨.holding i access found, []⟩ :=
  (keeps_perform (.bumpCleared i hi .acquisitions)).bind fun _ =>
    keeps_perform (.acquire i hi access)

theorem keeps_request (i : Fin n) (access : Access) :
    (request i access : Process mode n S V Unit).Keeps .idle ⟨.holding i access [i], []⟩ :=
  (keeps_check i []).bind fun _ => keeps_enter List.mem_cons_self access

/-- A worker may read a shard on which no mark was found, at any time before the next is made. -/
theorem keeps_collect {i : Fin n} {found : List (Fin n)} (hi : i ∈ found) :
    (collect i : Process mode n S V (Table V)).Keeps ⟨.cleared found, []⟩
      ⟨.cleared (i :: found), []⟩ :=
  (keeps_enter hi .shared).bind fun _ => (keeps_perform (.load i .shared found)).bind fun _ =>
    (keeps_perform (.release i .shared found)).bind fun _ => .inl rfl

theorem keeps_capture (i : Fin n) :
    (capture i : Process mode n S V (Table V)).Keeps .idle ⟨.cleared [i, i], []⟩ :=
  (keeps_check i []).bind fun _ => keeps_collect List.mem_cons_self

theorem keeps_captureAll : (captureAll : Process mode n S V (List (Table V))).Keeps .idle .idle :=
  keeps_mapM (fun i => (keeps_capture i).ease rfl) _

/-- After the checks of all shards, no mark was found on any. -/
theorem keeps_checkAll :
    (checkAll : Process mode n S V Unit).Keeps .idle ⟨.cleared (List.finRange n).reverse, []⟩ := by
  have hlist (list found : List (Fin n)) :
      (list.forM fun i => (perform (.check i) : Process mode n S V Unit)).Keeps
        ⟨.cleared found, []⟩ ⟨.cleared (list.reverseAux found), []⟩ := by
    induction list generalizing found with
    | nil => exact .inl rfl
    | cons i list ih => exact (keeps_check i found).bind fun _ => ih (i :: found)
  exact hlist _ []

/-- The checks that come before all workers stand in for one before each. -/
theorem keeps_collectAll :
    (collectAll : Process mode n S V (List (Table V))).Keeps .idle .idle := by
  have hlist (list found : List (Fin n)) (hfound : list ⊆ found) :
      (list.mapM collect : Process mode n S V (List (Table V))).Keeps ⟨.cleared found, []⟩
        .idle := by
    induction list generalizing found with
    | nil => exact .inr ⟨rfl, rfl⟩
    | cons i list ih =>
      rw [List.mapM_cons]
      obtain ⟨hi, hlist⟩ := List.cons_subset.mp hfound
      exact (keeps_collect hi).bind fun _ =>
        (ih _ (List.subset_cons_of_subset i hlist)).bind fun _ => .inl rfl
  exact keeps_checkAll.bind fun _ =>
    hlist _ _ fun _ hmem => List.mem_reverse.mpr hmem

/-- A callback that keeps to the order may run under any lock that is held. The lock is still held
when it returns; a fault gives it back first. -/
theorem keeps_underMark {i : Fin n} {access : Access} {found : List (Fin n)}
    {callback : Process mode n S V β}
    (h : callback.Keeps .idle .idle) :
    (underMark i access callback).Keeps ⟨.holding i access found, []⟩
      ⟨.holding i access [], []⟩ := by
  refine (keeps_perform (.mark i access found)).bind fun _ => ?_
  refine ⟨.idle, access, rfl, h, fun result => ?_⟩
  cases result with
  | ok b => exact (keeps_perform (.unmark i access)).bind fun _ => .inl rfl
  | error fault =>
    exact (keeps_perform (.unmark i access)).bind fun _ =>
      (keeps_perform (.release i access [])).bind fun _ =>
        (rfl : Standing.holds ⟨.cleared [i], []⟩ = [])

theorem keeps_update {key : String} {callback : Option V → Process mode n S V (V × β)}
    (h : ∀ old, (callback old).Keeps .idle .idle) : (update key callback).Keeps .idle .idle := by
  refine (keeps_perform (.route rfl key)).bind fun i => ?_
  refine (keeps_request i .exclusive).bind fun _ => ?_
  refine (keeps_perform (.load i .exclusive _)).bind fun table => ?_
  refine (keeps_underMark (h table[key]?)).bind fun stored => ?_
  refine (keeps_perform (.put i _ _)).bind fun _ => ?_
  refine (keeps_perform (.bumpHolding i .exclusive _ .writes)).bind fun _ => ?_
  exact (keeps_perform (.release i .exclusive _)).bind fun _ => .inr ⟨rfl, rfl⟩

theorem keeps_visitShard {callback : String → V → Process mode n S V β}
    (h : ∀ key value, (callback key value).Keeps .idle .idle) (i : Fin n) :
    (visitShard callback i).Keeps .idle .idle := by
  refine (keeps_request i .shared).bind fun _ => ?_
  refine (keeps_perform (.load i .shared _)).bind fun table => ?_
  refine (keeps_underMark (keeps_mapM (fun entry => ?_) _)).bind fun visited => ?_
  · exact (h entry.1 entry.2).bind fun b => .inl rfl
  · exact (keeps_perform (.release i .shared _)).bind fun _ => .inr ⟨rfl, rfl⟩

theorem keeps_visit {callback : String → V → Process mode n S V β}
    (h : ∀ key value, (callback key value).Keeps .idle .idle) :
    (visit callback).Keeps .idle .idle :=
  (keeps_mapM (keeps_visitShard h) _).bind fun _ => .inl rfl

end Process

/-! ## Programs -/

namespace Operation

open Process

variable {S V β : Type} {mode : Threading} {n : Nat}

theorem keeps_lookup (key : String) :
    (lookup key : Process mode n S V (Option V)).Keeps .idle .idle := by
  refine (keeps_perform (.route rfl key)).bind fun i => ?_
  refine (keeps_capture i).bind fun table => ?_
  exact (keeps_perform (.bumpCleared i List.mem_cons_self .reads)).bind fun _ => .inr ⟨rfl, rfl⟩

theorem keeps_removal (key : String) :
    (removal key : Process mode n S V (Option V)).Keeps .idle .idle := by
  refine (keeps_perform (.route rfl key)).bind fun i => ?_
  refine (keeps_request i .exclusive).bind fun _ => ?_
  refine (keeps_perform (.load i .exclusive _)).bind fun table => ?_
  refine (keeps_perform (.put i _ _)).bind fun _ => ?_
  refine (keeps_perform (.release i .exclusive _)).bind fun _ => ?_
  simp only
  split
  · exact (keeps_perform (.bumpCleared i List.mem_cons_self .removes)).bind fun _ => .inr ⟨rfl, rfl⟩
  · exact .inr ⟨rfl, rfl⟩

theorem keeps_countAll : (countAll : Process mode n S V Nat).Keeps .idle .idle :=
  keeps_captureAll.bind fun _ => .inl rfl

theorem keeps_readTally (i : Fin n) :
    (readTally i : Process mode n S V Tally).Keeps .idle .idle := by
  refine (keeps_perform (.counted rfl i .reads)).bind fun _ => ?_
  refine (keeps_perform (.counted rfl i .writes)).bind fun _ => ?_
  refine (keeps_perform (.counted rfl i .removes)).bind fun _ => ?_
  exact (keeps_perform (.counted rfl i .acquisitions)).bind fun _ => .inl rfl

/-- Every operation keeps to the order, and holds nothing when it returns. -/
theorem keeps_process (operation : Operation V β) :
    (operation.process : Process mode n S V β).Keeps .idle .idle := by
  cases operation with
  | set key value =>
    refine (keeps_perform (.route rfl key)).bind fun i => ?_
    refine (keeps_request i .exclusive).bind fun _ => ?_
    refine (keeps_perform (.load i .exclusive _)).bind fun table => ?_
    refine (keeps_perform (.put i _ _)).bind fun _ => ?_
    refine (keeps_perform (.release i .exclusive _)).bind fun _ => ?_
    exact (keeps_perform (.bumpCleared i List.mem_cons_self .writes)).ease rfl
  | setIfAbsent key value =>
    refine (keeps_perform (.route rfl key)).bind fun i => ?_
    refine (keeps_request i .exclusive).bind fun _ => ?_
    refine (keeps_perform (.load i .exclusive _)).bind fun table => ?_
    -- Both ways give the lock back, but only one counts, and does so before.
    split
    · exact (keeps_perform (.release i .exclusive _)).bind fun _ => .inr ⟨rfl, rfl⟩
    · refine (keeps_perform (.put i _ _)).bind fun _ => ?_
      refine (keeps_perform (.bumpHolding i .exclusive _ .writes)).bind fun _ => ?_
      exact (keeps_perform (.release i .exclusive _)).bind fun _ => .inr ⟨rfl, rfl⟩
  | get key => exact keeps_lookup key
  | has key => exact (keeps_lookup key).bind fun _ => .inl rfl
  | remove key => exact (keeps_removal key).bind fun _ => .inl rfl
  | pop key => exact keeps_removal key
  | shardIndex key => exact (keeps_perform (.route rfl key)).bind fun _ => .inl rfl
  | shardCount => exact .inl rfl
  | count => exact keeps_countAll
  | keys => exact keeps_countAll.bind fun _ => keeps_collectAll.bind fun _ => .inl rfl
  | items => exact keeps_countAll.bind fun _ => keeps_captureAll.bind fun _ => .inl rfl
  | stats =>
    refine keeps_captureAll.bind fun tables => ?_
    exact (keeps_mapM keeps_readTally _).bind fun operations => .inl rfl
  | snapshot => exact keeps_collectAll.bind fun _ => .inl rfl

end Operation

/-- Every program of one thread keeps to the order, whatever its callbacks do and whether they
return or unwind. -/
theorem Program.keeps_process {S V α : Type} {n : Nat} (program : Program .single S V α) :
    (program.process : Process .single n S V α).Keeps .idle .idle := by
  induction program with
  | done value => exact .inl rfl
  | unwind fault => exact (rfl : Standing.idle.holds = [])
  | call operation next ih => exact operation.keeps_process.bind ih
  | withOwn change next ih => exact ⟨rfl, ih⟩
  | update key callback next ihcallback ihnext =>
    exact (Process.keeps_update ihcallback).bind ihnext
  | visit callback next ihcallback ihnext =>
    exact (Process.keeps_visit ihcallback).bind ihnext
  | attempt part next ihpart ihnext => exact ⟨ihpart, ihnext⟩
  | onThread may => cases may

end ShardStore
