import ShardStore.Proofs.Courses.Inside

/-!
# Visits with callbacks that change the store

A visit calls back for the entries of one shard after another. Its callbacks may insert, overwrite
and remove meanwhile, so what is visited is no function of the store that the visit starts on.
`Visits` says what it is: shard by shard, in order, the entries of the table that is there when the
shard's lock is taken, and nothing changes that table before the shard is left. What callbacks did
to the shards behind it shows, what they did to those before it does not.

## Why it ends

A shard is visited once, and the entries to visit are fixed when its lock is taken, so entries that
callbacks insert do not prolong the visit of the shard they run under: that shard refuses them.
-/

namespace ShardStore

/-- How a course ends that has a value to return unless it met a fault. -/
def Outcome.unless {α : Type} : Option Fault → α → Outcome α
  | none, value => .returned value
  | some fault, _ => .unwound fault

variable {σ S V β : Type} {n : Nat} {me : ThreadId} {scopes : List (Fin n × Access)}
  {callback : String → V → Program .single S V β}

/-! ## What a visit is -/

/-- The callback is run on entries one after another, up to the first on which it unwinds: the
entries on which it returned with what it returned, that fault, and the store and the variables that
are left. -/
inductive CallsBack (me : ThreadId) (callback : String → V → Program .single S V β) :
    List (String × V) → Store σ V n → S →
      List ((String × V) × β) → Option Fault → Store σ V n → S → Prop where
  | done (store : Store σ V n) (own : S) : CallsBack me callback [] store own [] none store own
  | returned {entry : String × V} {rest : List (String × V)} {store next after : Store σ V n}
      {own own' own'' : S} {b : β} {visited : List ((String × V) × β)} {fault : Option Fault}
      (hcall : (callback entry.1 entry.2).run me store own = (.returned b, next, own'))
      (hrest : CallsBack me callback rest next own' visited fault after own'') :
      CallsBack me callback (entry :: rest) store own ((entry, b) :: visited) fault after own''
  | unwound {entry : String × V} {rest : List (String × V)} {store after : Store σ V n}
      {own own' : S} {fault : Fault}
      (hcall : (callback entry.1 entry.2).run me store own = (.unwound fault, after, own')) :
      CallsBack me callback (entry :: rest) store own [] (some fault) after own'

/-- The visit of shard `i`: its lock is taken, the callback is run on the entries that are there,
and the lock is given back on the store `inner` that the callbacks leave. -/
structure VisitsShard (me : ThreadId) (callback : String → V → Program .single S V β) (i : Fin n)
    (store : Store σ V n) (own : S) (visited : List ((String × V) × β)) (fault : Option Fault)
    (inner : Store σ V n) (own' : S) : Prop where
  /-- Nobody holds the lock that is taken, or any other. -/
  atRest : store.AtRest
  /-- The entries that are visited are those of the table that is there. -/
  calls : CallsBack me callback (store.table i).toList
    (store.modify i (Shard.opened me .shared)) own visited fault inner own'
  /-- At every point until the lock is given back the table is that table. -/
  still : ∀ p now own₁,
    Process.Reaches me
      (Process.visitEntries (fun key value => (callback key value).process)
        (store.table i).toList : Process .single n S V _)
      (store.modify i (Shard.opened me .shared)) own p now own₁ →
      now.table i = store.table i
  /-- Afterwards the shard is as it was, but for one more request that it has counted. -/
  left : (inner.modify i (Shard.closed me .shared)).shard i = (store.shard i).requested

/-- The visit of some shards, one after another, up to the first callback that unwinds. `found` are
the shards whose lock was taken, with the table that each had then. -/
inductive Visits (me : ThreadId) (callback : String → V → Program .single S V β) :
    List (Fin n) → Store σ V n → S → List (Fin n × Table V) →
      List ((String × V) × β) → Option Fault → Store σ V n → S → Prop where
  | done (store : Store σ V n) (own : S) : Visits me callback [] store own [] [] none store own
  | shard {i : Fin n} {rest : List (Fin n)} {store inner after : Store σ V n} {own own' own'' : S}
      {found : List (Fin n × Table V)} {visited visited' : List ((String × V) × β)}
      {fault : Option Fault}
      (hshard : VisitsShard me callback i store own visited none inner own')
      (hrest : Visits me callback rest (inner.modify i (Shard.closed me .shared)) own' found
        visited' fault after own'') :
      Visits me callback (i :: rest) store own ((i, store.table i) :: found) (visited ++ visited')
        fault after own''
  | unwound {i : Fin n} {rest : List (Fin n)} {store inner : Store σ V n} {own own' : S}
      {visited : List ((String × V) × β)} {fault : Fault}
      (hshard : VisitsShard me callback i store own visited (some fault) inner own') :
      Visits me callback (i :: rest) store own [(i, store.table i)] visited (some fault)
        (inner.modify i (Shard.closed me .shared)) own'

namespace CallsBack

variable {entries : List (String × V)} {store after : Store σ V n} {own own' : S}
  {visited : List ((String × V) × β)} {fault : Option Fault}

/-- The entries that were visited are the first of those there were. -/
theorem entries_prefix (h : CallsBack me callback entries store own visited fault after own') :
    visited.map Prod.fst <+: entries := by
  induction h with
  | done => exact List.nil_prefix
  | returned _ _ ih => exact (List.prefix_cons_inj _).mpr ih
  | unwound => exact List.nil_prefix

/-- If no callback unwinds, they are all there were. -/
theorem entries_eq (h : CallsBack me callback entries store own visited none after own') :
    visited.map Prod.fst = entries := by
  generalize hnone : (none : Option Fault) = fault at h
  induction h with
  | done => rfl
  | returned _ _ ih => exact congrArg₂ List.cons rfl (ih hnone)
  | unwound => cases hnone

end CallsBack

namespace Visits

variable {shards : List (Fin n)} {store after : Store σ V n} {own own' : S}
  {found : List (Fin n × Table V)} {visited : List ((String × V) × β)} {fault : Option Fault}

/-- Locks are taken in the order of the shards, and entries are visited in the order of the locks. -/
theorem found_prefix (h : Visits me callback shards store own found visited fault after own') :
    found.map Prod.fst <+: shards ∧
      visited.map Prod.fst <+: found.flatMap fun stop => stop.2.toList := by
  induction h with
  | done => exact ⟨List.nil_prefix, List.nil_prefix⟩
  | shard hshard _ ih =>
    refine ⟨(List.prefix_cons_inj _).mpr ih.1, ?_⟩
    rw [List.map_append, List.flatMap_cons, hshard.calls.entries_eq]
    exact (List.prefix_append_right_inj _).mpr ih.2
  | unwound hshard =>
    refine ⟨(List.prefix_cons_inj _).mpr List.nil_prefix, ?_⟩
    rw [List.flatMap_cons, List.flatMap_nil, List.append_nil]
    exact hshard.calls.entries_prefix

/-- If no callback unwinds, all locks are taken and all entries visited. -/
theorem found_eq (h : Visits me callback shards store own found visited none after own') :
    found.map Prod.fst = shards ∧
      visited.map Prod.fst = found.flatMap fun stop => stop.2.toList := by
  generalize hnone : (none : Option Fault) = fault at h
  induction h with
  | done => exact ⟨rfl, rfl⟩
  | shard hshard _ ih =>
    obtain ⟨hshards, hvisited⟩ := ih hnone
    refine ⟨congrArg₂ List.cons rfl hshards, ?_⟩
    rw [List.map_append, List.flatMap_cons, hshard.calls.entries_eq, hvisited]
  | unwound => cases hnone

/-- A fault leaves the shard under whose lock it arose with the table that was found there. -/
theorem table_of_unwound {fault : Fault}
    (h : Visits me callback shards store own found visited (some fault) after own') :
    ∃ stop, found.getLast? = some stop ∧ after.table stop.1 = stop.2 := by
  generalize hsome : some fault = fault' at h
  induction h with
  | done => cases hsome
  | @shard i rest store inner after own own₁ own₂ found visited visited' fault hshard _ ih =>
    obtain ⟨stop, hlast, htable⟩ := ih hsome
    refine ⟨stop, ?_, htable⟩
    rw [List.getLast?_cons, hlast]
    rfl
  | @unwound i rest store inner own own₁ visited fault hshard =>
    refine ⟨(i, store.table i), rfl, ?_⟩
    rw [Store.table, hshard.left]
    rfl

end Visits

/-! ## Every visit is one -/

namespace Process

variable {store : Store σ V n}

/-- Running the callback on entries keeps to the order of checks, locks and marks. -/
theorem keeps_visitEntries (callback : String → V → Program .single S V β)
    (entries : List (String × V)) :
    (visitEntries (fun key value => (callback key value).process) entries :
      Process .single n S V _).Keeps .idle .idle := by
  refine keeps_mapM (fun entry : String × V => ?_) entries
  exact (callback entry.1 entry.2).keeps_process.bind fun _ => .inl rfl

/-- Running the callback on entries inside some scopes. -/
theorem exists_callsBack (callback : String → V → Program .single S V β)
    (h : store.Inside me scopes) (entries : List (String × V)) (own : S) :
    ∃ visited fault after own', CallsBack me callback entries store own visited fault after own' ∧
      (visitEntries (fun key value => (callback key value).process) entries :
        Process .single n S V _).run me store own = (.unless fault visited, after, own') ∧
      after.Inside me scopes ∧ ∀ i ∈ scopes.map Prod.fst, after.shard i = store.shard i := by
  induction entries generalizing store own with
  | nil => exact ⟨[], none, store, own, .done store own, rfl, h, fun _ _ => rfl⟩
  | cons entry rest ih =>
    have hbody : (visitEntries (fun key value => (callback key value).process) (entry :: rest) :
        Process .single n S V _) = (callback entry.1 entry.2).process.bind fun b =>
          (visitEntries (fun key value => (callback key value).process) rest).bind fun visited =>
            .done ((entry, b) :: visited) := by
      rw [visitEntries, List.mapM_cons]
      simp only [bind_eq, pure_eq, bind_assoc, bind]
      rfl
    obtain ⟨hnot, hinside, hsame⟩ :=
      (callback entry.1 entry.2).keeps_process.run_inside h own
    rcases hcall : (callback entry.1 entry.2).process.run me store own with ⟨outcome, next, own₁⟩
    rw [hcall] at hnot hinside hsame
    rw [hbody, run_bind, hcall]
    -- A callback that returns is followed by the next one, a fault by nothing.
    cases outcome with
    | returned b =>
      obtain ⟨visited, fault, after, own₂, hcalls, hrun, hafter, hrest⟩ := ih hinside own₁
      refine ⟨(entry, b) :: visited, fault, after, own₂, .returned hcall hcalls, ?_, hafter,
        fun i hi => (hrest i hi).trans (hsame i hi)⟩
      simp only [run_bind, hrun]
      cases fault <;> rfl
    | unwound fault =>
      exact ⟨[], some fault, next, own₁, .unwound hcall, rfl, hinside, hsame⟩
    | blocked => exact absurd rfl hnot

/-- Running the callback on the entries of a shard, outside of all scopes. -/
theorem exists_visitsShard (callback : String → V → Program .single S V β) (h : store.AtRest)
    (i : Fin n) (own : S) :
    ∃ visited fault inner own', VisitsShard me callback i store own visited fault inner own' ∧
      (visitShard (fun key value => (callback key value).process) i :
        Process .single n S V _).run me store own =
        (.unless fault visited, inner.modify i (Shard.closed me .shared), own') ∧
      (inner.modify i (Shard.closed me .shared)).AtRest := by
  have hinside : store.Inside me [] := Store.inside_nil_iff.mpr h
  have hadmits := h.admits me i .shared
  have hopened : (store.modify i (Shard.opened me .shared)).Inside me [(i, .shared)] :=
    hinside.opened List.not_mem_nil
  have hi : i ∈ [(i, Access.shared)].map Prod.fst := List.mem_singleton_self i
  obtain ⟨visited, fault, inner, own', hcalls, hrun, hinner, hsame⟩ :=
    exists_callsBack callback hopened (store.table i).toList own
  have hkeeps := keeps_visitEntries (n := n) callback (store.table i).toList
  have hshard := hsame i hi
  rw [Store.shard_modify_self] at hshard
  refine ⟨visited, fault, inner, own', ⟨h, hcalls, fun p now own₁ hreaches => ?_, ?_⟩, ?_, ?_⟩
  · obtain ⟨-, -, -, -, hstill⟩ := hkeeps.reaches_inside hopened hreaches
    rw [Store.table, hstill i hi, Store.shard_modify_self]
    rfl
  · rw [Store.shard_modify_self, hshard, Shard.closed_opened hadmits.1 hadmits.2]
  · rw [run_visitShard hadmits, hrun]
    cases fault <;> rfl
  · exact Store.inside_nil_iff.mp hinner.closed.1

/-- Running the callback on the entries of some shards, outside of all scopes. -/
theorem exists_visits (me : ThreadId) (callback : String → V → Program .single S V β)
    (h : store.AtRest) (shards : List (Fin n)) (own : S) :
    ∃ found parts fault after own',
      Visits me callback shards store own found parts.flatten fault after own' ∧
      (shards.mapM (visitShard fun key value => (callback key value).process) :
        Process .single n S V _).run me store own = (.unless fault parts, after, own') ∧
      after.AtRest := by
  induction shards generalizing store own with
  | nil => exact ⟨[], [], none, store, own, .done store own, rfl, h⟩
  | cons i rest ih =>
    obtain ⟨visited, fault, inner, own₁, hshard, hrun, hrest⟩ :=
      exists_visitsShard callback h i own
    rw [List.mapM_cons, bind_eq, run_bind, hrun]
    cases fault with
    | none =>
      obtain ⟨found, parts, fault, after, own₂, hvisits, hrun', hafter⟩ := ih hrest own₁
      refine ⟨_, visited :: parts, fault, after, own₂, .shard hshard hvisits, ?_, hafter⟩
      simp only [Outcome.unless, bind_eq, run_bind, hrun']
      cases fault <;> rfl
    | some fault =>
      refine ⟨[(i, store.table i)], [visited], some fault, _, own₁, ?_, rfl, hrest⟩
      rw [List.flatten_singleton]
      exact .unwound hshard

end Process

/-- **A visit shows every shard as it is when its turn comes.** Whatever its callbacks do to the
store, a visit of a store at rest goes through the shards in order, and on each through the entries
of the table that is there when the lock is taken, each once, while that table stays as it is. It
ends: with all that was visited, or with the fault of the first callback that unwinds, after which
no entry is visited and no lock taken, and the table under whose lock it arose is as it was found.
The store is at rest again and otherwise as the callbacks left it. -/
theorem Program.forEach_visits_in_order {store : Store σ V n} (h : store.AtRest) (me : ThreadId)
    (callback : String → V → Program .single S V β) (own : S) :
    ∃ found visited fault after own',
      (forEach callback).run me store own = (.unless fault visited, after, own') ∧
      Visits me callback (List.finRange n) store own found visited fault after own' ∧
      after.AtRest ∧
      found.map Prod.fst <+: List.finRange n ∧
      (visited.map Prod.fst <+: found.flatMap fun stop => stop.2.toList) ∧
      (∀ stop ∈ found, (stop.2.toList.map Prod.fst).Nodup) ∧
      (fault = none → found.map Prod.fst = List.finRange n ∧
        visited.map Prod.fst = found.flatMap fun stop => stop.2.toList) ∧
      (fault ≠ none → ∃ stop, found.getLast? = some stop ∧ after.table stop.1 = stop.2) := by
  obtain ⟨found, parts, fault, after, own', hvisits, hrun, hafter⟩ :=
    Process.exists_visits me callback h (List.finRange n) own
  obtain ⟨hlocks, hentries⟩ := hvisits.found_prefix
  refine ⟨found, parts.flatten, fault, after, own', ?_, hvisits, hafter, hlocks, hentries,
    fun stop _ => stop.2.keys_toList_nodup, fun hnone => ?_, fun hsome => ?_⟩
  · rw [run_forEach, Process.visit, Process.bind_eq, Process.run_bind, hrun]
    cases fault <;> rfl
  · subst hnone
    exact hvisits.found_eq
  · obtain ⟨fault, rfl⟩ := Option.ne_none_iff_exists'.mp hsome
    exact hvisits.table_of_unwound

/-- Two shards with entries, and callbacks that insert at every visit and unwind at the key "c". -/
theorem Program.forEach_visits_in_order_growing :
    let config : Config Unit := { shardCount := 2 }
    let fill : Program .single Unit Nat Unit := setMany [("a", 1), ("b", 2)]
    let callback : String → Nat → Program .single Unit Nat Unit := fun key value => do
      let _ ← caught (set "c" value)
      let _ ← caught (set (key ++ key) value)
      if key = "c" then .unwind (.callback "no") else return ()
    ∃ store : Store Unit Nat config.shards, Store.ofConfig config = .ok store ∧
      let filled := (fill.run ⟨0, 0⟩ store ()).2.1
      filled.AtRest ∧
      ∃ found visited fault after own',
        (forEach callback).run ⟨0, 0⟩ filled () = (.unless fault visited, after, own') ∧
        Visits ⟨0, 0⟩ callback (List.finRange _) filled () found visited fault after own' ∧
        after.AtRest ∧
        found.map Prod.fst <+: List.finRange _ ∧
        (visited.map Prod.fst <+: found.flatMap fun stop => stop.2.toList) ∧
        (∀ stop ∈ found, (stop.2.toList.map Prod.fst).Nodup) ∧
        (fault = none → found.map Prod.fst = List.finRange _ ∧
          visited.map Prod.fst = found.flatMap fun stop => stop.2.toList) ∧
        (fault ≠ none → ∃ stop, found.getLast? = some stop ∧ after.table stop.1 = stop.2) := by
  intro config fill callback
  obtain ⟨store, hstore⟩ : ∃ store : Store Unit Nat config.shards,
      Store.ofConfig config = .ok store := ⟨_, rfl⟩
  have hinside : store.Inside ⟨0, 0⟩ [] := Store.inside_nil_iff.mpr (Store.atRest_of_ofConfig hstore)
  have hfilled := Store.inside_nil_iff.mp (fill.keeps_process.run_inside hinside ()).2.1
  exact ⟨store, hstore, hfilled, forEach_visits_in_order hfilled ⟨0, 0⟩ callback ()⟩

end ShardStore
