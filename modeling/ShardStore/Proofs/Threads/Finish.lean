import ShardStore.Proofs.Calls.Keyed
import ShardStore.Proofs.Courses.Holds

/-!
# How a call finishes under a lock

From the moment at which a call has been granted the lock of its shard, nobody else has a say in
what it will answer and leave there: its remaining actions read and replace the table that it has
locked, count, mark, and give the lock back. `Process.finish?` reads the end off what is left of
the call and the table. One step further, with whatever the other threads did in between, it reads
off the same end (`Process.finish?_of_step?`).
-/

namespace ShardStore

/-- How what is left of a call ends: its result, the table and the caller's variables that it
leaves, and what it still counts. -/
structure Finish (S V β : Type) where
  result : Except Fault β
  table : Table V
  own : S
  counts : List Counter

/-- The same end, with more to count before. -/
def Finish.after {S V β : Type} (finish : Finish S V β) (counts : List Counter) : Finish S V β :=
  { finish with counts := counts ++ finish.counts }

/-- What an action under a lock gives from the table of its shard, with the table that it leaves and
what it counts. -/
def Action.onTable? {V : Type} {n : Nat} : {β : Type} → Action n V β → Table V →
    Option (β × Table V × List Counter)
  | _, .load _, table => some (table, table, [])
  | _, .put _ table, _ => some ((), table, [])
  | _, .bump _ counter, table => some ((), table, [counter])
  | _, .release _ _, table => some ((), table, [])
  | _, .mark _, table => some ((), table, [])
  | _, .unmark _, table => some ((), table, [])
  | _, _, _ => none

namespace Process

variable {σ S V α β : Type} {n : Nat} {i : Fin n}

/-- How a course ends whose actions are all on one shard, under its lock or on its tally, if it
finds a certain table there. -/
def finish? (i : Fin n) : {α : Type} → Process .single n S V α → Table V → S → Option (Finish S V α)
  | _, .done value, table, own => some ⟨.ok value, table, own, []⟩
  | _, .unwind fault, table, own => some ⟨.error fault, table, own, []⟩
  | _, .act action next, table, own =>
    if action.shard? = some i then
      (action.onTable? table).bind fun (b, table, counts) =>
        ((next b).finish? i table own).map fun finish => finish.after counts
    else none
  | _, .withOwn change next, table, own => (next (change own).1).finish? i table (change own).2
  | _, .attempt _ part next, table, own =>
    (part.finish? i table own).bind fun ended =>
      ((next ended.result).finish? i ended.table ended.own).map fun finish =>
        finish.after ended.counts
  | _, .onThread _ _ _ _, _, _ => none

theorem finish?_act {action : Action n V β} {next : β → Process .single n S V α} {table : Table V}
    {own : S} {finish : Finish S V α} :
    (act action next).finish? i table own = some finish ↔
      ∃ b table' counts rest, action.shard? = some i ∧
        action.onTable? table = some (b, table', counts) ∧
        (next b).finish? i table' own = some rest ∧ finish = rest.after counts := by
  simp only [finish?]
  split
  · next hshard =>
    simp only [Option.bind_eq_some_iff, Option.map_eq_some_iff, Prod.exists]
    constructor
    · rintro ⟨b, table', counts, haction, rest, hrest, rfl⟩
      exact ⟨b, table', counts, rest, hshard, haction, hrest, rfl⟩
    · rintro ⟨b, table', counts, rest, -, haction, hrest, rfl⟩
      exact ⟨b, table', counts, haction, rest, hrest, rfl⟩
  · next hshard =>
    constructor
    · intro hnone
      cases hnone
    · rintro ⟨b, table', counts, rest, hshard', -⟩
      exact (hshard hshard').elim

theorem finish?_attempt {scope : Option (Fin n)} {part : Process .single n S V β}
    {next : Except Fault β → Process .single n S V α} {table : Table V} {own : S}
    {finish : Finish S V α} :
    (attempt scope part next).finish? i table own = some finish ↔
      ∃ ended rest, part.finish? i table own = some ended ∧
        (next ended.result).finish? i ended.table ended.own = some rest ∧
        finish = rest.after ended.counts := by
  simp only [finish?, Option.bind_eq_some_iff, Option.map_eq_some_iff]
  constructor
  · rintro ⟨ended, hpart, rest, hrest, rfl⟩
    exact ⟨ended, rest, hpart, hrest, rfl⟩
  · rintro ⟨ended, rest, hpart, hrest, rfl⟩
    exact ⟨ended, hpart, rest, hrest, rfl⟩

/-- Doing something to the value that a course returns changes its result only. -/
theorem finish?_bind_done {p : Process .single n S V α} {table : Table V} {own : S}
    {finish : Finish S V α} (h : p.finish? i table own = some finish) (g : α → β) :
    (p.bind fun a => .done (g a)).finish? i table own =
      some { finish with result := finish.result.map g } := by
  induction p generalizing table own with
  | done value => cases h; rfl
  | unwind fault => cases h; rfl
  | act action next ih =>
    obtain ⟨b, table', counts, rest, hshard, haction, hrest, rfl⟩ := finish?_act.mp h
    exact finish?_act.mpr ⟨b, table', counts, _, hshard, haction, ih b hrest g, rfl⟩
  | withOwn change next ih => exact ih _ h g
  | attempt scope part next _ ih =>
    obtain ⟨ended, rest, hpart, hrest, rfl⟩ := finish?_attempt.mp h
    exact finish?_attempt.mpr ⟨ended, _, hpart, ih _ hrest g, rfl⟩
  | onThread => cases h

/-- The end of a course that has ended. -/
theorem finish?_of_ended? {p : Process .single n S V α} {result : Except Fault α}
    (h : p.ended? = some result) (table : Table V) (own : S) :
    p.finish? i table own = some ⟨result, table, own, []⟩ := by
  obtain ⟨value, rfl, rfl⟩ | ⟨fault, rfl, rfl⟩ := eq_of_ended? h <;> rfl

/-- Such a course asks for no lock. -/
theorem isSome_onTable?_of_finish? {p : Process .single n S V α} {table : Table V} {own : S}
    {finish : Finish S V α} (h : p.finish? i table own = some finish) {action : Action n V β}
    (hupcoming : p.upcoming? = some ⟨β, action⟩) : ∃ table, (action.onTable? table).isSome := by
  induction p generalizing table own with
  | act action' next _ =>
    cases hupcoming
    obtain ⟨b, table', counts, rest, -, haction, -⟩ := finish?_act.mp h
    exact ⟨table, by rw [haction]; rfl⟩
  | attempt scope part next ihpart _ =>
    obtain ⟨ended, rest, hpart, -⟩ := finish?_attempt.mp h
    exact ihpart hpart hupcoming
  | _ => cases hupcoming

/-- **A step does not change the end.** If it performs an action, what this counts is counted now
instead of later. The table is that of the shard wherever it is read. -/
theorem finish?_of_step? {me : ThreadId} {p p' : Process .single n S V α}
    {store store' : Store σ V n} {own own' : S} {table : Table V} {finish : Finish S V α}
    (h : p.finish? i table own = some finish)
    (hstep : p.step? me store own = some (p', store', own'))
    (hload : p.upcoming? = some ⟨Table V, .load i⟩ → store.table i = table) :
    (store' = store ∧ p'.finish? i table own' = some finish) ∨
    ∃ (β : Type) (action : Action n V β) (b : β) (table' : Table V) (counts : List Counter)
      (finish' : Finish S V α), p.upcoming? = some ⟨β, action⟩ ∧ action.shard? = some i ∧
      action.onTable? table = some (b, table', counts) ∧ store' = (action.perform me store).2 ∧
      p'.finish? i table' own' = some finish' ∧ finish = finish'.after counts := by
  induction p generalizing table own own' with
  | done => cases hstep
  | unwind => cases hstep
  | act action next _ =>
    obtain ⟨b, table', counts, finish', hshard, haction, hfinish', rfl⟩ := finish?_act.mp h
    have hperform : (action.perform me store).1 = .returned b := by
      cases action with
      | load j =>
        cases haction
        obtain rfl : j = i := Option.some.inj hshard
        exact congrArg Outcome.returned (hload rfl)
      | route | check | acquire | counted => cases haction
      | _ => cases haction; rfl
    rcases hresult : action.perform me store with ⟨outcome, store₁⟩
    obtain rfl : outcome = .returned b := by rw [← hperform, hresult]
    simp only [step?, hresult, Option.some.injEq, Prod.mk.injEq] at hstep
    obtain ⟨rfl, rfl, rfl⟩ := hstep
    exact .inr ⟨_, action, b, table', counts, finish', rfl, hshard, haction, by rw [hresult],
      hfinish', rfl⟩
  | withOwn change next _ =>
    cases hstep
    exact .inl ⟨rfl, h⟩
  | attempt scope part next ihpart _ =>
    obtain ⟨ended, rest, hpart, hrest, rfl⟩ := finish?_attempt.mp h
    simp only [step?] at hstep
    split at hstep
    · next result hended =>
      cases hstep
      rw [finish?_of_ended? hended] at hpart
      cases hpart
      exact .inl ⟨rfl, hrest⟩
    · obtain ⟨⟨part', store₁, own₁⟩, hstep', heq⟩ := Option.map_eq_some_iff.mp hstep
      cases heq
      obtain ⟨rfl, hpart'⟩ | ⟨β, action, b, table', counts, ended', hupcoming, hshard, haction, rfl,
        hpart', rfl⟩ := ihpart hpart hstep' hload
      · exact .inl ⟨rfl, finish?_attempt.mpr ⟨ended, rest, hpart', hrest, rfl⟩⟩
      · refine .inr ⟨β, action, b, table', counts, rest.after ended'.counts, hupcoming, hshard,
          haction, rfl, finish?_attempt.mpr ⟨ended', rest, hpart', hrest, rfl⟩, ?_⟩
        simp only [Finish.after, List.append_assoc]
  | onThread may => cases may

/-- A course that holds no lock replaces no table any more. -/
theorem Keeps.table_of_finish? {p : Process .single n S V α} {standing final : Standing n}
    (h : p.Keeps standing final) (hfree : standing.holds = []) {table : Table V} {own : S}
    {finish : Finish S V α} (hfinish : p.finish? i table own = some finish) :
    finish.table = table := by
  induction p generalizing standing final table own with
  | done => cases hfinish; rfl
  | unwind => cases hfinish; rfl
  | act action next ih =>
    obtain ⟨standing', hallows, hnext⟩ := h
    obtain ⟨b, table', counts, rest, -, haction, hrest, rfl⟩ := finish?_act.mp hfinish
    cases hallows with
    | bumpCleared i _ counter =>
      cases haction
      have hkept : rest.table = table := ih () (hnext ()) rfl hrest
      exact hkept
    | route | check | counted | acquire => cases haction
    | _ => cases hfree
  | withOwn change next ih => exact ih _ (h.2 _) hfree hfinish
  | attempt scope part next ihpart ih =>
    obtain ⟨ended, rest, hpart, hrest, rfl⟩ := finish?_attempt.mp hfinish
    cases scope with
    | none =>
      have hkept : rest.table = ended.table := ih _ (h.2 _) rfl hrest
      exact hkept.trans (ihpart h.1 hfree hpart)
    | some i =>
      -- Inside a callback, the lock around it is held.
      obtain ⟨inner, access, rfl, -⟩ := h
      have hnone := Standing.scopes_eq_nil hfree
      exact absurd hnone (List.append_ne_nil_of_right_ne_nil _ (List.cons_ne_nil _ _))
  | onThread => cases hfinish

end Process

/-! ## On a store -/

section finishing

variable {σ S V α β : Type} {n : Nat} {me : ThreadId} {store store' serial serial' : Store σ V n}
  {own own' : S}

/-- What an action under a lock, or on a tally, does to its shard. -/
structure Shard.Changes {V : Type} (me : ThreadId) (shard shard' : Shard V) (table table' : Table V)
    (counts : List Counter) : Prop where
  tally : shard'.tally = shard.tally.bumpAll counts
  readers : me ∈ shard'.lock.readers → me ∈ shard.lock.readers
  writer : shard'.lock.writer = some me → shard.lock.writer = some me
  freed : shard'.lock.writer = none → shard.lock.writer = none ∨ shard.lock.writer = some me
  /-- Only the writer replaces the table, and it does not give the lock back with that. -/
  table : table' = table ∧ shard'.table = shard.table ∨
    shard.lock.writer = some me ∧ shard'.lock = shard.lock ∧ shard'.table = table'

theorem Standing.Allows.changes {standing standing' : Standing n} {scopes : List (Fin n × Access)}
    {action : Action n V β} (hallows : standing.Allows action standing')
    (h : store.Shows me (standing.under scopes)) {i : Fin n} (hshard : action.shard? = some i)
    {b : β} {table table' : Table V} {counts : List Counter}
    (hgives : action.onTable? table = some (b, table', counts)) :
    (store.shard i).Changes me ((action.perform me store).2.shard i) table table' counts := by
  cases hallows with
  | route | check | counted | acquire => cases hgives
  | bumpCleared j _ counter =>
    cases hgives
    obtain rfl : j = i := Option.some.inj hshard
    rw [Action.perform, Store.shard_modify_self]
    exact ⟨rfl, id, id, .inl, .inl ⟨rfl, rfl⟩⟩
  | bumpHolding j access _ counter =>
    cases hgives
    obtain rfl : j = i := Option.some.inj hshard
    rw [Action.perform, Store.shard_modify_self]
    exact ⟨rfl, id, id, .inl, .inl ⟨rfl, rfl⟩⟩
  | load j access _ =>
    cases hgives
    exact ⟨rfl, id, id, .inl, .inl ⟨rfl, rfl⟩⟩
  | put j _ new =>
    cases hgives
    obtain rfl : j = i := Option.some.inj hshard
    rw [Action.perform, Store.shard_modify_self]
    exact ⟨rfl, id, id, .inl, .inr ⟨(h.writer j).mpr List.mem_cons_self, rfl, rfl⟩⟩
  | mark j access _ =>
    cases hgives
    obtain rfl : j = i := Option.some.inj hshard
    rw [Action.perform, Store.shard_modify_self]
    exact ⟨rfl, id, id, .inl, .inl ⟨rfl, rfl⟩⟩
  | unmark j access =>
    cases hgives
    obtain rfl : j = i := Option.some.inj hshard
    rw [Action.perform, Store.shard_modify_self]
    exact ⟨rfl, id, id, .inl, .inl ⟨rfl, rfl⟩⟩
  | release j access _ =>
    cases hgives
    obtain rfl : j = i := Option.some.inj hshard
    rw [Action.perform, Store.shard_modify_self]
    cases access with
    | shared => exact ⟨rfl, List.mem_of_mem_erase, id, .inl, .inl ⟨rfl, rfl⟩⟩
    | exclusive =>
      refine ⟨rfl, id, ?_, fun _ => .inr ((h.writer j).mpr List.mem_cons_self), .inl ⟨rfl, rfl⟩⟩
      intro hwriter
      cases hwriter

/-- The shard whose table an action reads. -/
def Action.loads? : Action n V β → Option (Fin n)
  | .load i => some i
  | _ => none

/-- A table is read only under its lock. -/
theorem Standing.Allows.heldBy_of_loads? {standing standing' : Standing n}
    {scopes : List (Fin n × Access)} {action : Action n V β}
    (hallows : standing.Allows action standing') (h : store.Shows me (standing.under scopes))
    {i : Fin n} (hloads : action.loads? = some i) : (store.shard i).lock.HeldBy me := by
  cases hallows with
  | load j access _ =>
    cases hloads
    exact (h.heldBy_iff _).mpr List.mem_cons_self
  | _ => cases hloads

/-- A thread that is finishing a call on shard `i` of `store`, in a certain way. In `serial` the call
is over: while the thread has the lock to itself, the shard has the table there that it will leave. -/
structure Process.Finishing (p : Process .single n S V α) (me : ThreadId)
    (store serial : Store σ V n) (i : Fin n) (table : Table V) (own : S) (finish : Finish S V α) :
    Prop where
  ends : p.finish? i table own = some finish
  held : ∀ j, (store.shard j).lock.HeldBy me → j = i ∧ store.table i = table
  writes : (store.shard i).lock.writer = some me → serial.table i = finish.table

namespace Process.Finishing

variable {p p' : Process .single n S V α} {i : Fin n} {table : Table V} {finish : Finish S V α}

/-- What others do to shards whose locks the thread does not hold makes no difference to it. -/
theorem frame (h : p.Finishing me store serial i table own finish)
    (hlocks : ∀ j, ((store'.shard j).lock.HeldBy me → (store.shard j).lock.HeldBy me) ∧
      ((store'.shard j).lock.writer = some me → (store.shard j).lock.writer = some me))
    (htables : ∀ j, (store.shard j).lock.HeldBy me →
      store'.table j = store.table j ∧ serial'.table j = serial.table j) :
    p.Finishing me store' serial' i table own finish where
  ends := h.ends
  held j hj := by
    obtain ⟨rfl, htable⟩ := h.held j ((hlocks j).1 hj)
    exact ⟨rfl, (htables j ((hlocks j).1 hj)).1.trans htable⟩
  writes hwriter := by
    have hwriter' := (hlocks i).2 hwriter
    exact (htables i (.inr hwriter')).2.trans (h.writes hwriter')

/-- **A step of the thread brings it nearer to the same end.** Whenever the lock is free afterwards,
the table is the one in `serial`. -/
theorem step? {standing standing' : Standing n} (h : p.Finishing me store serial i table own finish)
    (htable : (store.shard i).lock.writer = none → serial.table i = store.table i)
    (hconsistent : (store.shard i).lock.Consistent)
    (hkeeps : p.Keeps standing .idle) (hshows : store.Shows me standing)
    (hkeeps' : p'.Keeps standing' .idle) (hshows' : store'.Shows me standing')
    (hstep : p.step? me store own = some (p', store', own')) :
    ∃ counts table' finish', finish = finish'.after counts ∧
      p'.Finishing me store' serial i table' own' finish' ∧
      ((store'.shard i).lock.writer = none → serial.table i = store'.table i) ∧
      (store'.shard i).tally = (store.shard i).tally.bumpAll counts ∧
      (∀ j, j ≠ i → store'.shard j = store.shard j) ∧
      (store'.table i = store.table i ∨ (store.shard i).lock.writer = some me) := by
  obtain ⟨hfinish, hheld, hwrites⟩ := h
  have hload (hupcoming : p.upcoming? = some ⟨Table V, .load i⟩) : store.table i = table := by
    obtain ⟨inner, inner', outer, rfl, hallows⟩ := hkeeps.exists_allows hupcoming
    exact (hheld i (hallows.heldBy_of_loads? hshows rfl)).2
  obtain ⟨rfl, hfinish'⟩ | ⟨β, action, b, table', counts, finish', hupcoming, hshard, hgives, rfl,
    hfinish', rfl⟩ := Process.finish?_of_step? hfinish hstep hload
  · exact ⟨[], table, finish, rfl, ⟨hfinish', hheld, hwrites⟩, htable, rfl, fun j _ => rfl, .inl rfl⟩
  · obtain ⟨inner, inner', outer, rfl, hallows⟩ := hkeeps.exists_allows hupcoming
    have hchanges := hallows.changes hshows hshard hgives
    have haway (j : Fin n) (hj : j ≠ i) : (action.perform me store).2.shard j = store.shard j :=
      action.shard_perform me store fun heq => hj (Option.some.inj (heq.symm.trans hshard))
    have hbefore (j : Fin n) (hj : ((action.perform me store).2.shard j).lock.HeldBy me) :
        (store.shard j).lock.HeldBy me := by
      by_cases hji : j = i
      · subst hji
        rcases hj with hreader | hwriter
        · exact .inl (hchanges.readers hreader)
        · exact .inr (hchanges.writer hwriter)
      · rwa [haway j hji] at hj
    refine ⟨counts, table', finish', rfl, ⟨hfinish', fun j hj => ?_, fun hwriter => ?_⟩,
      fun hfree => ?_, hchanges.tally, haway, ?_⟩
    · obtain ⟨rfl, hbefore'⟩ := hheld j (hbefore j hj)
      refine ⟨rfl, ?_⟩
      obtain ⟨rfl, hsame⟩ | ⟨-, -, hput⟩ := hchanges.table
      · exact hsame.trans hbefore'
      · exact hput
    · exact hwrites (hchanges.writer hwriter)
    · rcases hchanges.freed hfree with hnone | hme
      · obtain ⟨-, hsame⟩ | ⟨hwriter, -⟩ := hchanges.table
        · exact (htable hnone).trans hsame.symm
        · rw [hnone] at hwriter
          cases hwriter
      · -- The lock was given back: nothing is held any more, so the table is final.
        obtain ⟨rfl, hsame⟩ | ⟨-, hlock, -⟩ := hchanges.table
        · have hheld' : (store.shard i).lock.HeldBy me := .inr hme
          have hreaders : (store.shard i).lock.readers = [] :=
            hconsistent fun hnone => nomatch hnone.symm.trans hme
          have hnot (j : Fin n) : ¬((action.perform me store).2.shard j).lock.HeldBy me := by
            intro hj
            obtain ⟨rfl, -⟩ := hheld j (hbefore j hj)
            rcases hj with hreader | hwriter
            · exact List.not_mem_nil (hreaders ▸ hchanges.readers hreader)
            · rw [hfree] at hwriter
              cases hwriter
          have hnothing : standing'.holds = [] :=
            List.eq_nil_iff_forall_not_mem.mpr fun hold hmem =>
              hnot hold.1 ((hshows'.heldBy_iff hold.1).mpr (List.mem_map_of_mem hmem))
          calc serial.table i = finish'.table := hwrites hme
            _ = table' := hkeeps'.table_of_finish? hnothing hfinish'
            _ = store.table i := (hheld i hheld').2.symm
            _ = _ := hsame.symm
        · rw [hlock, hme] at hfree
          cases hfree
    · obtain ⟨-, hsame⟩ | ⟨hwriter, -⟩ := hchanges.table
      · exact .inl hsame
      · exact .inr hwriter

end Process.Finishing

end finishing

end ShardStore
