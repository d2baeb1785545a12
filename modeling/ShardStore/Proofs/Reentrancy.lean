import Mathlib.Data.Fintype.Card
import ShardStore.Proofs.Courses.Inside

/-!
# Calling back into the store

A callback may make further calls on the store whose lock it runs under. `Program.marks_are_exact`
says what becomes of them, at any depth and whichever faults are caught: the marks of a thread are
at every point those of the callbacks that it is running, so a request is refused just where it
would wait for the thread itself.

## Why this is exact

A request is refused for a mark, and a mark stands for a callback, so a refused request is for a
shard whose lock the thread holds. The converse is what the order of checks, locks and marks is
for: between its calls a thread holds no lock outside of the scopes of its callbacks, and each of
these is marked. So where no mark is found no lock is held.

Workers look for no mark of the thread that they read for, which waits for them. Here their requests
count as requests of that thread, so what is said of these holds of them because of the checks that
come before the first worker.
-/

namespace ShardStore

/-- What is so of the store at a point of a thread, where it is running callbacks under the locks of
the shards `callbacks` and `upcoming` is the action that it performs next. -/
structure Store.Exact {σ V : Type} {n : Nat} (store : Store σ V n) (me : ThreadId)
    (callbacks : List (Fin n)) (upcoming : Option ((β : Type) × Action n V β)) : Prop where
  /-- No shard is called back under twice. -/
  once : callbacks.Nodup
  /-- There are no more callbacks than shards. -/
  few : callbacks.length ≤ n
  /-- The thread has one mark on each shard that it is running a callback under, and no other. -/
  marked : ∀ i, (store.shard i).markers.count me = if i ∈ callbacks then 1 else 0
  /-- It holds the locks that its callbacks run under. -/
  locked : ∀ i ∈ callbacks, (store.shard i).lock.HeldBy me
  /-- When a call asks the router or looks for a mark, the thread is inside the scopes of its
  callbacks: it holds their locks and no other. -/
  between : ∀ (β : Type) (action : Action n V β), upcoming = some ⟨β, action⟩ →
    action.starts = true → ∃ scopes, scopes.map Prod.fst = callbacks ∧ store.Inside me scopes
  /-- A request, which starts by looking for a mark, is refused just if the thread is running a
  callback there, and then nothing is changed. -/
  refused : ∀ i, upcoming = some ⟨Unit, .check i⟩ →
    (Action.check i : Action n V Unit).perform me store =
      if i ∈ callbacks then (.unwound .reentrant, store) else (.returned (), store)
  /-- A request is refused just if it is for a lock that the thread holds. -/
  needed : ∀ i, upcoming = some ⟨Unit, .check i⟩ →
    (i ∈ callbacks ↔ (store.shard i).lock.HeldBy me)
  /-- A request that is not refused is granted at once, as the thread does not hold that lock. So is
  that of a worker which the thread waits for. -/
  granted : ∀ i access, upcoming = some ⟨Unit, .acquire i access⟩ →
    i ∉ callbacks ∧ ¬(store.shard i).lock.HeldBy me ∧
      (store.shard i).lock.grants access = true

namespace Process

variable {σ S V α β : Type} {n : Nat} {me : ThreadId} {store : Store σ V n}
  {scopes : List (Fin n × Access)} {p : Process .single n S V α} {standing : Standing n}

/-- A thread that starts a call is inside the scopes of its standing. -/
theorem Keeps.inside_of_starts (h : p.Keeps standing .idle)
    (hshows : store.Shows me (standing.under scopes)) (halone : store.Alone me)
    {action : Action n V β} (hupcoming : p.upcoming? = some ⟨β, action⟩)
    (hstarts : action.starts = true) : store.Inside me (standing.under scopes).scopes := by
  obtain ⟨inner, inner', outer, rfl, hallows⟩ := h.exists_allows hupcoming
  have hfree := hallows.holds_of_starts hstarts
  rw [Standing.under_under] at hshows ⊢
  have hinside := (hshows.rest hfree).inside halone
  rwa [Standing.under, Standing.scopes_eq_nil hfree]

/-- Where the locks and marks of a lone thread are those of its standing, they are exact. -/
theorem Keeps.exact (h : p.Keeps standing .idle) (hshows : store.Shows me (standing.under scopes))
    (halone : store.Alone me) :
    store.Exact me (p.running ++ scopes.map Prod.fst) p.upcoming? := by
  have hcalls : p.running ++ scopes.map Prod.fst = (standing.under scopes).calls := by
    rw [h.running_eq rfl, Standing.calls, Standing.calls, Standing.under, List.map_append]
  rw [hcalls]
  refine
    { once := hshows.nodup_calls
      few := ?_
      marked := fun i => ?_
      locked := fun i hi => ?_
      between := fun β action hupcoming hstarts =>
        ⟨_, rfl, h.inside_of_starts hshows halone hupcoming hstarts⟩
      refused := fun i _ => ?_
      needed := fun i hupcoming => ?_
      granted := fun i access hupcoming => ?_ }
  · -- No shard is marked twice, and there are only so many.
    exact (List.Nodup.length_le_card hshows.nodup_calls).trans_eq (Fintype.card_fin n)
  · rw [hshows.marks]
    split
    · next hi => exact List.count_eq_one_of_mem hshows.nodup_calls hi
    · next hi => exact List.count_eq_zero_of_not_mem hi
  · rw [hshows.heldBy_iff, Standing.holds, List.map_append]
    exact List.mem_append_right _ hi
  · simp only [Action.perform, hshows.mem_markers_iff]
  · exact ((h.inside_of_starts hshows halone hupcoming rfl).shows.heldBy_iff i).symm
  · obtain ⟨hfree, hgrants⟩ := h.grants hshows halone hupcoming
    refine ⟨fun hi => hfree ?_, hfree, hgrants⟩
    rw [hshows.heldBy_iff, Standing.holds, List.map_append]
    exact List.mem_append_right _ hi

end Process

/-- **Requests are refused exactly where they would never be met.** One thread runs any program, on
a store at rest or inside callbacks of its own. At every point, its marks are those of the
callbacks that are running, each once; a request is refused just where one is running, and without a
trace; and every other request is for a lock that the thread does not hold. The program does not
wait, and however it ends, marks and locks are those that it started with. -/
theorem Program.marks_are_exact {σ S V α : Type} {n : Nat} (program : Program .single S V α)
    {store : Store σ V n} {me : ThreadId} {scopes : List (Fin n × Access)}
    (h : store.Inside me scopes) (own : S) :
    (∀ p store' own', Process.Reaches me program.process store own p store' own' →
      store'.Exact me (p.running ++ scopes.map Prod.fst) p.upcoming?) ∧
    (program.run me store own).1 ≠ .blocked ∧
    (program.run me store own).2.1.Inside me scopes := by
  refine ⟨fun p store' own' hreaches => ?_, ?_⟩
  · obtain ⟨standing, hkeeps, hshows, halone, -⟩ := program.keeps_process.reaches_inside h hreaches
    exact hkeeps.exact hshows halone
  · obtain ⟨hrun, hinside, -⟩ := program.keeps_process.run_inside h own
    exact ⟨hrun, hinside⟩

/-- Two shards, and an update whose callback asks for its own key and catches the refusal, then
updates another key and catches what that callback unwinds with. -/
theorem Program.marks_are_exact_nested :
    let config : Config Unit := { shardCount := 2 }
    let nested : Program .single Unit Nat (Nat × Except Fault (Option Nat) ×
        Except Fault (Nat × Unit)) :=
      updateWith "a" fun _ => do
        let refused ← caught (get "a")
        let unwound ← caught (updateWith "b" fun _ => .unwind (.callback "no"))
        return (1, refused, unwound)
    ∃ store : Store Unit Nat config.shards, Store.ofConfig config = .ok store ∧
      store.Inside ⟨0, 0⟩ [] ∧
      (∀ p store' own', Process.Reaches ⟨0, 0⟩ nested.process store () p store' own' →
        store'.Exact ⟨0, 0⟩ (p.running ++ []) p.upcoming?) ∧
      (nested.run ⟨0, 0⟩ store ()).1 ≠ .blocked ∧
      (nested.run ⟨0, 0⟩ store ()).2.1.Inside ⟨0, 0⟩ [] := by
  intro config nested
  obtain ⟨store, hstore⟩ : ∃ store : Store Unit Nat config.shards,
      Store.ofConfig config = .ok store := ⟨_, rfl⟩
  have hinside : store.Inside ⟨0, 0⟩ [] := Store.inside_nil_iff.mpr (Store.atRest_of_ofConfig hstore)
  exact ⟨store, hstore, hinside, Program.marks_are_exact nested hinside ()⟩

end ShardStore
