import ShardStore.Proofs.Courses.Inside

/-!
# Updates are atomic on their shard

An update reads a value, runs a callback, and stores what the callback made of the value, all under
one hold of the shard. The callback may do anything on the store meanwhile. Its own shard refuses
it, so nothing that it does can come between the reading and the storing
(`Program.updateWith_is_atomic`), and a callback that unwinds leaves no more behind on that shard
than one counted request.
-/

namespace ShardStore

variable {σ S V β : Type} {n : Nat} {me : ThreadId} {scopes : List (Fin n × Access)}

/-- Storing under an open scope and closing it leaves the lock and the marks that were there. -/
theorem Shard.closed_stored_opened {access : Access} {shard : Shard V} (table : Table V)
    (hmark : me ∉ shard.markers) (hlock : shard.lock.grants access = true) :
    ((shard.opened me access).stored table).closed me access =
      { shard with
        table
        tally.acquisitions := shard.tally.acquisitions + 1
        tally.writes := shard.tally.writes + 1 } := by
  simp only [opened, stored, closed, Lock.release_take hlock, Markers.leave_enter hmark]

/-- **An update is atomic on its shard.** A thread that is running any callbacks updates a key of a
shard under which it is running none. The callback is given the value that the key has when the lock
is taken, and whatever it does, table and counters of the shard stay as they are. If it returns, its
value is stored and returned, and one write and one request are counted. If it unwinds, the fault
passes on and only the request is counted. The shard is at rest before and after, and everything
else is as the callback left it. -/
theorem Program.updateWith_is_atomic {store store' : Store σ V n} (h : store.Inside me scopes)
    {key : String} {i : Fin n} (hroute : store.route key = (.ok i, store'))
    (hi : i ∉ scopes.map Prod.fst) (callback : Option V → Program .single S V (V × β)) (own : S) :
    let before := store.shard i
    let course : Process .single n S V (V × β) := (callback before.table[key]?).process
    let opened := store'.modify i (Shard.opened me .exclusive)
    before.AtRest ∧
    (∀ p inner own', Process.Reaches me course opened own p inner own' →
      inner.table i = before.table ∧
      (inner.shard i).tally =
        { before.tally with acquisitions := before.tally.acquisitions + 1 }) ∧
    (course.run me opened own).1 ≠ .blocked ∧
    (∀ value b inner own', course.run me opened own = (.returned (value, b), inner, own') →
      (updateWith key callback).run me store own =
        (.returned (value, b), inner.modify i fun _ =>
          { before with
            table := before.table.insert key value
            tally.acquisitions := before.tally.acquisitions + 1
            tally.writes := before.tally.writes + 1 }, own')) ∧
    ∀ fault inner own', course.run me opened own = (.unwound fault, inner, own') →
      (updateWith key callback).run me store own =
        (.unwound fault, inner.modify i fun _ =>
          { before with tally.acquisitions := before.tally.acquisitions + 1 }, own') := by
  intro before course opened
  obtain ⟨hinside', hshard⟩ := h.route hroute
  have hadmits := hinside'.admits hi .exclusive
  have hopened : opened.Inside me ((i, .exclusive) :: scopes) := hinside'.opened hi
  have hopen : opened.shard i = before.opened me .exclusive := by
    rw [Store.shard_modify_self, hshard]
  have hkeeps : course.Keeps .idle .idle := (callback before.table[key]?).keeps_process
  have hmem : i ∈ ((i, Access.exclusive) :: scopes).map Prod.fst := List.mem_cons_self
  -- What runs inside keeps the shard with the open scope as it is, at every point and at the end.
  obtain ⟨hnot, -, hsame⟩ := hkeeps.run_inside hopened own
  have hrun := Process.run_update hroute hadmits (fun old => (callback old).process) own
  rw [← Program.run_updateWith, Store.table, hshard] at hrun
  obtain ⟨hmark, hlock⟩ := hadmits
  rw [hshard] at hmark hlock
  refine ⟨h.elsewhere i hi, fun p inner own' hreaches => ?_, hnot,
    fun value b inner own' hcourse => ?_, fun fault inner own' hcourse => ?_⟩
  · obtain ⟨-, -, -, -, hsame⟩ := hkeeps.reaches_inside hopened hreaches
    rw [Store.table, hsame i hmem, hopen]
    exact ⟨rfl, rfl⟩
  · rw [hcourse] at hsame
    rw [show (callback (store.shard i).table[key]?).process.run me
      (store'.modify i (Shard.opened me .exclusive)) own = _ from hcourse] at hrun
    refine hrun.trans (congrArg (fun after => (Outcome.returned (value, b), after, own')) ?_)
    refine Store.modify_congr inner ?_
    rw [hsame i hmem, hopen]
    exact Shard.closed_stored_opened _ hmark hlock
  · rw [hcourse] at hsame
    rw [show (callback (store.shard i).table[key]?).process.run me
      (store'.modify i (Shard.opened me .exclusive)) own = _ from hcourse] at hrun
    refine hrun.trans (congrArg (fun after => (Outcome.unwound fault, after, own')) ?_)
    refine Store.modify_congr inner ?_
    rw [hsame i hmem, hopen]
    exact Shard.closed_opened hmark hlock

/-- An update whose callback sets another key, is refused its own, and adds to the old value. -/
theorem Program.updateWith_is_atomic_nested :
    let config : Config Unit := { shardCount := 2 }
    let callback : Option Nat → Program .single Unit Nat (Nat × Except Fault (Option Nat)) :=
      fun old => do
        let _ ← caught (set "b" 5)
        let refused ← caught (get "a")
        return (old.getD 0 + 1, refused)
    ∃ (store : Store Unit Nat config.shards) (i : Fin config.shards),
      Store.ofConfig config = .ok store ∧ store.Inside ⟨0, 0⟩ [] ∧
      store.route "a" = (.ok i, store) ∧
      let before := store.shard i
      let course : Process .single config.shards Unit Nat _ := (callback before.table["a"]?).process
      let opened := store.modify i (Shard.opened ⟨0, 0⟩ .exclusive)
      before.AtRest ∧
      (∀ p inner own', Process.Reaches ⟨0, 0⟩ course opened () p inner own' →
        inner.table i = before.table ∧
        (inner.shard i).tally =
        { before.tally with acquisitions := before.tally.acquisitions + 1 }) ∧
      (course.run ⟨0, 0⟩ opened ()).1 ≠ .blocked ∧
      (∀ value b inner own', course.run ⟨0, 0⟩ opened () = (.returned (value, b), inner, own') →
        (updateWith "a" callback).run ⟨0, 0⟩ store () =
          (.returned (value, b), inner.modify i fun _ =>
            { before with
              table := before.table.insert "a" value
              tally.acquisitions := before.tally.acquisitions + 1
              tally.writes := before.tally.writes + 1 }, own')) ∧
      ∀ fault inner own', course.run ⟨0, 0⟩ opened () = (.unwound fault, inner, own') →
        (updateWith "a" callback).run ⟨0, 0⟩ store () =
          (.unwound fault, inner.modify i fun _ =>
            { before with tally.acquisitions := before.tally.acquisitions + 1 }, own') := by
  intro config callback
  obtain ⟨store, hstore⟩ : ∃ store : Store Unit Nat config.shards,
      Store.ofConfig config = .ok store := ⟨_, rfl⟩
  have hinside : store.Inside ⟨0, 0⟩ [] :=
    Store.inside_nil_iff.mpr (Store.atRest_of_ofConfig hstore)
  have hroute := Store.route_of_modulo (Store.of_ofConfig hstore).2.1 "a"
  exact ⟨store, _, hstore, hinside, hroute,
    updateWith_is_atomic hinside hroute List.not_mem_nil callback ()⟩

end ShardStore
