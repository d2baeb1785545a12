import Mathlib.Data.Set.Basic
import ShardStore.Proofs.Courses.Inside
import ShardStore.Proofs.Threads.Counts
import ShardStore.Proofs.Threads.KeyCalls

/-!
# Courses that look at some keys only

Two stores have the same under some keys, and perhaps not under others. A call about one of these
keys does the same on both: it asks the same, counts the same and answers the same, puts the same
under its key, and leaves the other keys of either store alone. `Process.Mirrors` says so of what is
left of a course on the one store and on the other. The two need not be equal, as each goes on with
the tables that it has read on its own store.
-/

namespace ShardStore

variable {σ S V α β γ : Type} {n : Nat} {keys : Set String}

/-- Two tables look up the same under certain keys. -/
def Table.AgreesOn (keys : Set String) (table table' : Table V) : Prop :=
  ∀ key ∈ keys, table[key]? = table'[key]?

namespace Table.AgreesOn

variable {table table' table'' : Table V}

theorem refl (keys : Set String) (table : Table V) : table.AgreesOn keys table := fun _ _ => rfl

theorem trans (h : table.AgreesOn keys table') (h' : table'.AgreesOn keys table'') :
    table.AgreesOn keys table'' :=
  fun key hkey => (h key hkey).trans (h' key hkey)

theorem mono {keys' : Set String} (h : table.AgreesOn keys table') (hkeys : keys' ⊆ keys) :
    table.AgreesOn keys' table' :=
  fun key hkey => h key (hkeys hkey)

end Table.AgreesOn

/-- A keyed call about one of the keys leaves them the same in both tables. -/
theorem Keyed.agreesOn_after (call : Keyed V β) {table table' : Table V}
    (hkey : call.key ∈ keys) (h : table.AgreesOn keys table') :
    (call.after table).AgreesOn keys (call.after table') := by
  intro key hmem
  by_cases heq : call.key = key
  · subst heq
    exact call.lookup_after_congr (h _ hkey)
  · rw [call.lookup_after_of_ne heq, call.lookup_after_of_ne heq]
    exact h key hmem

/-- It leaves all others alone. -/
theorem Keyed.agreesOn_compl_after (call : Keyed V β) (hkey : call.key ∈ keys) (table : Table V) :
    (call.after table).AgreesOn keysᶜ table :=
  fun _ hmem => call.lookup_after_of_ne (ne_of_mem_of_not_mem hkey hmem) table

/-- Whether an action does nothing with a table, and gives no lock back. -/
def Action.passes : Action n V β → Bool
  | .route _ | .check _ | .bump _ _ | .acquire _ _ | .mark _ | .unmark _ => true
  | _ => false

namespace Process

/-- The course only changes the thread's own variables. -/
def Still : {α : Type} → Process .single n S V α → Prop
  | _, .done _ => True
  | _, .unwind _ => True
  | _, .withOwn _ next => ∀ b, (next b).Still
  | _, _ => False

/-- What is left of a course on one store, and of the same course on another with the same under
certain keys. `seen` is what the course has read of the shard that it holds of the first store, with
what it has put there since. -/
inductive Mirrors (keys : Set String) :
    {α : Type} → Option (Fin n × Table V) → Process .single n S V α → Process .single n S V α → Prop
  where
  | done {α : Type} (value : α) : Mirrors keys none (.done value) (.done value)
  | unwind {α : Type} (fault : Fault) :
    Mirrors keys none (.unwind fault : Process .single n S V α) (.unwind fault)
  | act {α β : Type} {seen : Option (Fin n × Table V)} {action : Action n V β}
      {next next' : β → Process .single n S V α} (hpasses : action.passes = true)
      (hstarts : action.starts = true → seen = none)
      (hnext : ∀ b, Mirrors keys seen (next b) (next' b)) :
      Mirrors keys seen (.act action next) (.act action next')
  /-- What it reads may differ under other keys. -/
  | load {α : Type} {seen : Option (Fin n × Table V)} (i : Fin n)
      {next next' : Table V → Process .single n S V α}
      (hnext : ∀ table table' : Table V, table.AgreesOn keys table' →
        Mirrors keys (some (i, table)) (next table) (next' table')) :
      Mirrors keys seen (.act (.load i) next) (.act (.load i) next')
  /-- What it puts there differs from what it has read under these keys only. -/
  | put {α : Type} (i : Fin n) {read table table' : Table V}
      {next next' : Unit → Process .single n S V α} (hagree : table.AgreesOn keys table')
      (hothers : table.AgreesOn keysᶜ read)
      (hnext : ∀ b, Mirrors keys (some (i, table)) (next b) (next' b)) :
      Mirrors keys (some (i, read)) (.act (.put i table) next) (.act (.put i table') next')
  | release {α : Type} {seen : Option (Fin n × Table V)} (i : Fin n) (access : Access)
      {next next' : Unit → Process .single n S V α}
      (hnext : ∀ b, Mirrors keys none (next b) (next' b)) :
      Mirrors keys seen (.act (.release i access) next) (.act (.release i access) next')
  | withOwn {α β : Type} {seen : Option (Fin n × Table V)} (change : S → β × S)
      {next next' : β → Process .single n S V α}
      (hnext : ∀ b, Mirrors keys seen (next b) (next' b)) :
      Mirrors keys seen (.withOwn change next) (.withOwn change next')
  | attempt {α β : Type} {seen : Option (Fin n × Table V)} {part part' : Process .single n S V β}
      {next next' : Except Fault β → Process .single n S V α} (hpart : Mirrors keys seen part part')
      (hnext : ∀ result, Mirrors keys none (next result) (next' result)) :
      Mirrors keys seen (.attempt none part next) (.attempt none part' next')
  /-- Callbacks do not call back. -/
  | callback {α β : Type} {seen : Option (Fin n × Table V)} (i : Fin n)
      {part : Process .single n S V β} {next next' : Except Fault β → Process .single n S V α}
      (hpart : part.Still) (hnext : ∀ result, Mirrors keys seen (next result) (next' result)) :
      Mirrors keys seen (.attempt (some i) part next) (.attempt (some i) part next')

/-! ## Calls about keys -/

theorem Mirrors.bind {seen : Option (Fin n × Table V)} {p q : Process .single n S V α}
    {f g : α → Process .single n S V β} (h : Mirrors keys seen p q)
    (hf : ∀ a, Mirrors keys none (f a) (g a)) : Mirrors keys seen (p.bind f) (q.bind g) := by
  induction h with
  | done value => exact hf value
  | unwind fault => exact .unwind fault
  | act hpasses hstarts _ ih => exact .act hpasses hstarts fun b => ih b hf
  | load i _ ih => exact .load i fun table table' hagree => ih table table' hagree hf
  | put i hagree hothers _ ih => exact .put i hagree hothers fun b => ih b hf
  | release i access _ ih => exact .release i access fun b => ih b hf
  | withOwn change _ ih => exact .withOwn change fun b => ih b hf
  | attempt hpart _ _ ih => exact .attempt hpart fun result => ih result hf
  | callback i hpart _ ih => exact .callback i hpart fun result => ih result hf

/-- A call about a key, from the question to the router up to the table. -/
theorem mirrors_locked (key : String) (access : Access)
    {next next' : Fin n → Table V → Process .single n S V α}
    (h : ∀ i table table', table.AgreesOn keys table' →
      Mirrors keys (some (i, table)) (next i table) (next' i table')) :
    Mirrors keys none
      (perform (.route key) >>= fun i => request i access >>= fun _ => perform (.load i) >>= next i)
      (perform (.route key) >>= fun i => request i access >>= fun _ =>
        perform (.load i) >>= next' i) :=
  .act rfl (fun _ => rfl) fun i => .act rfl (fun _ => rfl) fun _ => .act rfl nofun fun _ =>
    .act rfl nofun fun _ => .load i (h i)

/-- An update mirrors itself if it combines what is under one of the keys. -/
theorem mirrors_update {key : String} {callback : Option V → Process .single n S V (V × β)}
    (hkey : key ∈ keys) (hstill : ∀ old, (callback old).Still) :
    Mirrors keys none (update key callback) (update key callback) := by
  refine mirrors_locked key .exclusive fun i table table' hagree => ?_
  rw [hagree key hkey]
  refine .act rfl nofun fun _ => .callback i (hstill _) fun result => ?_
  cases result with
  | ok stored =>
    have hset := (Keyed.set key stored.1).agreesOn_after hkey hagree
    have hothers := (Keyed.set key stored.1).agreesOn_compl_after hkey table
    exact .act rfl nofun fun _ => .put i hset hothers fun _ => .act rfl nofun fun _ =>
      .release i .exclusive fun _ => .done stored
  | error fault =>
    exact .act rfl nofun fun _ => .release i .exclusive fun _ => .unwind fault

end Process

namespace Operation

open Process

theorem mirrors_lookup {key : String} (hkey : key ∈ keys) :
    Mirrors keys none (lookup key : Process .single n S V (Option V)) (lookup key) := by
  refine mirrors_locked key .shared fun i table table' hagree => ?_
  refine .release i .shared fun _ => .act rfl nofun fun _ => ?_
  rw [hagree key hkey]
  exact .done _

theorem mirrors_removal {key : String} (hkey : key ∈ keys) :
    Mirrors keys none (removal key : Process .single n S V (Option V)) (removal key) := by
  refine mirrors_locked key .exclusive fun i table table' hagree => ?_
  have hafter := (Keyed.pop key).agreesOn_after hkey hagree
  have hothers := (Keyed.pop key).agreesOn_compl_after hkey table
  refine .put i hafter hothers fun _ => .release i .exclusive fun _ => ?_
  simp only [Table.contains_eq_isSome, hagree key hkey]
  split
  · exact .act rfl nofun fun _ => .done _
  · exact .done _

/-- A keyed call about one of the keys mirrors itself. -/
theorem mirrors_keyed (call : Keyed V β) (hkey : call.key ∈ keys) :
    Mirrors keys none (call.operation.process : Process .single n S V β)
      call.operation.process := by
  cases call with
  | set key value =>
    refine mirrors_locked key .exclusive fun i table table' hagree => ?_
    have hafter := (Keyed.set key value).agreesOn_after hkey hagree
    have hothers := (Keyed.set key value).agreesOn_compl_after hkey table
    exact .put i hafter hothers fun _ => .release i .exclusive fun _ =>
      .act rfl nofun fun _ => .done ()
  | setIfAbsent key value =>
    refine mirrors_locked key .exclusive fun i table table' hagree => ?_
    have hset := (Keyed.set key value).agreesOn_after hkey hagree
    have hothers := (Keyed.set key value).agreesOn_compl_after hkey table
    simp only [Table.contains_eq_isSome, hagree key hkey]
    split
    · exact .release i .exclusive fun _ => .done false
    · exact .put i hset hothers fun _ => .act rfl nofun fun _ =>
        .release i .exclusive fun _ => .done true
  | get key => exact mirrors_lookup hkey
  | has key => exact (mirrors_lookup hkey).bind fun found => .done found.isSome
  | remove key => exact (mirrors_removal hkey).bind fun _ => .done ()
  | pop key => exact mirrors_removal hkey

end Operation

namespace Call

/-- The call is about some of the keys: keyed, an insertion of several pairs, or an upsert, which
combines without calling back. -/
def Among (keys : Set String) : Call S V → Prop
  | .keyed call => call.key ∈ keys
  | .setMany pairs => ∀ pair ∈ pairs, pair.1 ∈ keys
  | .upsert key _ _ => key ∈ keys
  | _ => False

/-- A call about some of the keys mirrors itself. -/
theorem Among.mirrors {call : Call S V} (h : call.Among keys) :
    Process.Mirrors keys none (call.program.process : Process .single n S V (Answer V))
      call.program.process := by
  cases call with
  | keyed call => exact (Operation.mirrors_keyed call h).bind fun b => .done (call.tell b)
  | setMany pairs =>
    have hpairs : Process.Mirrors keys none
        ((Program.setMany pairs).process : Process .single n S V Unit)
        (Program.setMany pairs).process := by
      induction pairs with
      | nil => exact .done ()
      | cons pair pairs ih =>
        have hset := Operation.mirrors_keyed (S := S) (n := n) (Keyed.set pair.1 pair.2)
          (h pair List.mem_cons_self)
        exact hset.bind fun _ => ih fun pair' hmem => h pair' (List.mem_cons_of_mem _ hmem)
    have hprogram : ((Call.setMany pairs).program.process : Process .single n S V (Answer V)) =
        (Program.setMany pairs).process.bind fun _ => .done Answer.nothing :=
      Program.process_bind ..
    rw [hprogram]
    exact hpairs.bind fun _ => .done Answer.nothing
  | upsert key given combine =>
    have hstill (old : Option V) :
        ((KeyCall.combining given combine old : Program .single S V (V × Unit)).process :
          Process .single n S V (V × Unit)).Still := by
      intro result
      cases result <;> trivial
    have hupdate := Process.mirrors_update h hstill
    exact hupdate.bind fun stored => .done (Answer.stored stored.1)
  | _ => exact h.elim

/-- So do calls one after another. -/
theorem mirrors_session {calls : List (Call S V)} (h : ∀ call ∈ calls, call.Among keys) :
    Process.Mirrors keys none (session calls : Program .single S V (List (Answer V))).process
      ((session calls).process : Process .single n S V (List (Answer V))) := by
  induction calls with
  | nil => exact .done []
  | cons call calls ih =>
    have hanswered : Process.Mirrors keys none
        ((call.answered : Program .single S V (Answer V)).process : Process .single n S V _)
        call.answered.process := by
      rw [answered_eq]
      exact .attempt (h call List.mem_cons_self).mirrors fun result => .done _
    rw [session, List.mapM_cons, Program.bind_eq, Program.process_bind]
    refine hanswered.bind fun answer => ?_
    rw [Program.bind_eq, Program.process_bind]
    exact (ih fun call' hmem => h call' (List.mem_cons_of_mem _ hmem)).bind fun answers => .done _

end Call

/-! ## Side by side -/

/-- What a course does to a shard of a store and to the same shard of another store. -/
structure Shard.Beside (keys : Set String) (shard shard' solo solo' : Shard V) : Prop where
  agree : shard'.table.AgreesOn keys solo'.table
  /-- Other keys are left alone. -/
  others : shard'.table.AgreesOn keysᶜ shard.table
  /-- The same is counted. -/
  tally : ∃ events : Multiset Counter, shard'.tally = shard.tally.plus events ∧
    solo'.tally = solo.tally.plus events

/-- It does nothing that shows. -/
theorem Shard.Beside.still {shard shard' solo solo' : Shard V}
    (h : shard.table.AgreesOn keys solo.table) (htable : shard'.table = shard.table)
    (hsolo : solo'.table = solo.table) (htally : shard'.tally = shard.tally)
    (hsoloTally : solo'.tally = solo.tally) : Beside keys shard shard' solo solo' where
  agree := by rw [htable, hsolo]; exact h
  others := by rw [htable]; exact .refl _ _
  tally := ⟨0, htally, hsoloTally⟩

/-- A change of the one shard, and a change of the other. -/
theorem Store.beside_modify {store solo : Store σ V n} {i : Fin n}
    {change change' : Shard V → Shard V}
    (h : ∀ j, (store.table j).AgreesOn keys (solo.table j))
    (hchange : (store.shard i).Beside keys (change (store.shard i)) (solo.shard i)
      (change' (solo.shard i))) (j : Fin n) :
    (store.shard j).Beside keys ((store.modify i change).shard j) (solo.shard j)
      ((solo.modify i change').shard j) := by
  by_cases hij : i = j
  · subst hij
    rwa [shard_modify_self, shard_modify_self]
  · rw [shard_modify_ne _ hij, shard_modify_ne _ hij]
    exact .still (h j) rfl rfl rfl rfl

/-- What an action needs in order to do the same on both stores. -/
structure Action.Ready (me : ThreadId) (store solo : Store σ V n) (action : Action n V β) :
    Prop where
  unmarked : action.starts = true →
    ∀ i, me ∉ (store.shard i).markers ∧ me ∉ (solo.shard i).markers
  granted : ∀ i access, action.asksFor? = some (i, access) →
    (solo.shard i).lock.grants access = true
  held : ∀ i, action.loads? = some i → (store.shard i).lock.HeldBy me

/-- The thread has the lock of the shard whose table it has read, and nobody has changed it. -/
def Store.Reading (store : Store σ V n) (me : ThreadId) (seen : Option (Fin n × Table V)) : Prop :=
  ∀ i table, seen = some (i, table) → store.table i = table ∧ (store.shard i).lock.HeldBy me

/-- A change of one shard that keeps its table and leaves the lock to its holders. -/
theorem Store.Reading.modify {store : Store σ V n} {me : ThreadId}
    {seen : Option (Fin n × Table V)} (h : store.Reading me seen) {i : Fin n}
    {change : Shard V → Shard V} (htable : (change (store.shard i)).table = store.table i)
    (hheld : (store.shard i).lock.HeldBy me → (change (store.shard i)).lock.HeldBy me) :
    (store.modify i change).Reading me seen := by
  intro j table hseen
  obtain ⟨hread, hlock⟩ := h j table hseen
  by_cases hij : i = j
  · subst hij
    rw [table_modify_self, shard_modify_self]
    exact ⟨htable.trans hread, hheld hlock⟩
  · rw [table_modify_ne _ hij, shard_modify_ne _ hij]
    exact ⟨hread, hlock⟩

/-- A lock that is taken is held, and stays with those who hold it. -/
theorem Lock.heldBy_take {T : Type} {lock : Lock T} {holder : T} (h : lock.HeldBy holder)
    {access : Access} (hgrants : lock.grants access = true) (taker : T) :
    (lock.take taker access).HeldBy holder := by
  cases access with
  | shared => exact h.imp_left (List.mem_cons_of_mem _)
  | exclusive => exact (not_heldBy_of_grants_exclusive hgrants holder h).elim

/-- An action that does nothing with a table does the same on both stores. -/
theorem Action.exists_perform_of_passes {me : ThreadId} {store store' solo : Store σ V n}
    {send : String → Except Fault (Fin n)} {action : Action n V β} {outcome : Outcome β}
    (hpasses : action.passes = true) (hready : action.Ready me store solo)
    (hsends : store.SendsBy send) (hsoloSends : solo.SendsBy send)
    (htables : ∀ i, (store.table i).AgreesOn keys (solo.table i))
    (hperform : action.perform me store = (outcome, store')) (hnot : outcome ≠ .blocked) :
    ∃ solo', action.perform me solo = (outcome, solo') ∧
      (∀ fault, outcome = .unwound fault → action.starts = true) ∧
      (∀ seen, store.Reading me seen → store'.Reading me seen) ∧
      ∀ i, (store.shard i).Beside keys (store'.shard i) (solo.shard i) (solo'.shard i) := by
  cases action with
  | route key =>
    obtain ⟨routing, hroute, -⟩ := hsends.exists_route_eq key
    obtain ⟨routing', hroute', -⟩ := hsoloSends.exists_route_eq key
    rw [perform, hroute] at hperform
    rw [perform, hroute']
    cases hsend : send key with
    | ok i =>
      rw [hsend] at hperform
      cases hperform
      exact ⟨_, rfl, fun _ _ => rfl, fun _ h => h, fun j => .still (htables j) rfl rfl rfl rfl⟩
    | error fault =>
      rw [hsend] at hperform
      cases hperform
      exact ⟨_, rfl, fun _ _ => rfl, fun _ h => h, fun j => .still (htables j) rfl rfl rfl rfl⟩
  | check i =>
    rw [perform, if_neg (hready.unmarked rfl i).1] at hperform
    cases hperform
    exact ⟨solo, by rw [perform, if_neg (hready.unmarked rfl i).2], by rintro _ ⟨⟩, fun _ h => h,
      fun j => .still (htables j) rfl rfl rfl rfl⟩
  | acquire i access =>
    rw [perform] at hperform
    split at hperform
    · next hgrants =>
      cases hperform
      exact ⟨_, by rw [perform, if_pos (hready.granted i access rfl)], by rintro _ ⟨⟩,
        fun seen h => h.modify rfl fun hheld => Lock.heldBy_take hheld hgrants me,
        Store.beside_modify htables (.still (htables i) rfl rfl rfl rfl)⟩
    · cases hperform
      exact (hnot rfl).elim
  | bump i counter =>
    cases hperform
    exact ⟨_, rfl, by rintro _ ⟨⟩, fun seen h => h.modify rfl id,
      Store.beside_modify htables ⟨htables i, .refl _ _, {counter}, rfl, rfl⟩⟩
  | mark i =>
    cases hperform
    exact ⟨_, rfl, by rintro _ ⟨⟩, fun seen h => h.modify rfl id,
      Store.beside_modify htables (.still (htables i) rfl rfl rfl rfl)⟩
  | unmark i =>
    cases hperform
    exact ⟨_, rfl, by rintro _ ⟨⟩, fun seen h => h.modify rfl id,
      Store.beside_modify htables (.still (htables i) rfl rfl rfl rfl)⟩
  | _ => cases hpasses

namespace Process

theorem Still.upcoming? {p : Process .single n S V α} (h : p.Still) : p.upcoming? = none := by
  cases p with
  | done | unwind | withOwn => rfl
  | _ => exact h.elim

/-- Courses that mirror each other end alike, holding nothing. -/
theorem Mirrors.eq_of_ended? {seen : Option (Fin n × Table V)} {p q : Process .single n S V α}
    (h : Mirrors keys seen p q) {result : Except Fault α} (hended : p.ended? = some result) :
    q = p ∧ seen = none := by
  cases h with
  | done | unwind => exact ⟨rfl, rfl⟩
  | _ => cases hended

theorem Mirrors.ended?_eq_none {seen : Option (Fin n × Table V)} {p q : Process .single n S V α}
    (h : Mirrors keys seen p q) (hended : p.ended? = none) : q.ended? = none := by
  cases h with
  | done | unwind => cases hended
  | _ => rfl

/-- Where a call starts, or asks for its lock, no callback is running, and the other course does the
same. -/
theorem Mirrors.running_eq_nil {seen : Option (Fin n × Table V)} {p q : Process .single n S V α}
    (h : Mirrors keys seen p q) {action : Action n V β}
    (hupcoming : p.upcoming? = some ⟨β, action⟩)
    (haction : action.starts = true ∨ action.asksFor?.isSome) :
    p.running = [] ∧ q.running = [] ∧ q.upcoming? = some ⟨β, action⟩ := by
  induction h with
  | act =>
    cases hupcoming
    cases action with
    | unmark => rcases haction with haction | haction <;> cases haction
    | _ => exact ⟨rfl, rfl, rfl⟩
  | attempt _ _ ihpart =>
    obtain ⟨hrunning, hrunning', hupcoming'⟩ := ihpart hupcoming
    exact ⟨(List.append_nil _).trans hrunning, (List.append_nil _).trans hrunning', hupcoming'⟩
  | callback i hpart =>
    rw [upcoming?, hpart.upcoming?] at hupcoming
    cases hupcoming
  | load | put | release =>
    cases hupcoming
    rcases haction with haction | haction <;> cases haction
  | _ => cases hupcoming

/-- A thread that runs no callback has left no mark. -/
theorem Keeps.not_mem_markers {me : ThreadId} {store : Store σ V n} {p : Process .single n S V α}
    {standing : Standing n} (h : p.Keeps standing .idle) (hshows : store.Shows me standing)
    (hrunning : p.running = []) (i : Fin n) : me ∉ (store.shard i).markers := by
  rw [hshows.mem_markers_iff, ← h.running_eq rfl, hrunning]
  exact List.not_mem_nil

/-- A thread that keeps to the order among others, and by itself, does the same. -/
theorem Mirrors.ready {me : ThreadId} {store solo : Store σ V n} {standing standing' : Standing n}
    {seen : Option (Fin n × Table V)} {p q : Process .single n S V α} (h : Mirrors keys seen p q)
    (hkeeps : p.Keeps standing .idle) (hshows : store.Shows me standing)
    (hsoloKeeps : q.Keeps standing' .idle) (hsoloShows : solo.Shows me standing')
    (halone : solo.Alone me) {action : Action n V β} (hupcoming : p.upcoming? = some ⟨β, action⟩) :
    action.Ready me store solo where
  unmarked hstarts i := by
    obtain ⟨hrunning, hrunning', -⟩ := h.running_eq_nil hupcoming (.inl hstarts)
    exact ⟨hkeeps.not_mem_markers hshows hrunning i,
      hsoloKeeps.not_mem_markers hsoloShows hrunning' i⟩
  granted i access hasks := by
    obtain ⟨-, -, hupcoming'⟩ := h.running_eq_nil hupcoming (.inr (by rw [hasks]; rfl))
    cases action with
    | acquire =>
      cases hasks
      rw [← Standing.under_nil standing'] at hsoloShows
      exact (hsoloKeeps.grants hsoloShows halone hupcoming').2
    | _ => cases hasks
  held i hloads := by
    obtain ⟨inner, inner', outer, rfl, hallows⟩ := hkeeps.exists_allows hupcoming
    exact hallows.heldBy_of_loads? hshows hloads

/-- A course that does nothing but change variables does so on both stores. -/
theorem Still.step? {me : ThreadId} {p p' : Process .single n S V α} {store store' : Store σ V n}
    {own own' : S} (h : p.Still) (hstep : p.step? me store own = some (p', store', own')) 
    (solo : Store σ V n) :
    p'.Still ∧ store' = store ∧ p.step? me solo own = some (p', solo, own') := by
  cases p with
  | withOwn change next =>
    cases hstep
    exact ⟨h _, rfl, rfl⟩
  | done | unwind => cases hstep
  | _ => exact h.elim

/-- **A step on the one store is a step on the other.** -/
theorem Mirrors.exists_step? {me : ThreadId} {store store' solo : Store σ V n}
    {send : String → Except Fault (Fin n)} {seen : Option (Fin n × Table V)}
    {p p' q : Process .single n S V α} {own own' : S} (h : Mirrors keys seen p q)
    (hready : ∀ (β : Type) (action : Action n V β), p.upcoming? = some ⟨β, action⟩ →
      action.Ready me store solo)
    (hsends : store.SendsBy send) (hsoloSends : solo.SendsBy send)
    (htables : ∀ i, (store.table i).AgreesOn keys (solo.table i)) (hseen : store.Reading me seen)
    (hstep : p.step? me store own = some (p', store', own')) :
    ∃ q' solo' seen', q.step? me solo own = some (q', solo', own') ∧ Mirrors keys seen' p' q' ∧
      store'.Reading me seen' ∧
      ∀ i, (store.shard i).Beside keys (store'.shard i) (solo.shard i) (solo'.shard i) := by
  have hstill (i : Fin n) : (store.shard i).Beside keys (store.shard i) (solo.shard i)
      (solo.shard i) := .still (htables i) rfl rfl rfl rfl
  induction h generalizing own own' with
  | done => cases hstep
  | unwind => cases hstep
  | @act α β seen action next next' hpasses hstarts hnext _ =>
    have hready' := hready _ action rfl
    rcases hperform : action.perform me store with ⟨outcome, store₁⟩
    simp only [Process.step?, hperform] at hstep ⊢
    have hblocked : outcome ≠ .blocked := by
      rintro rfl
      cases hstep
    obtain ⟨solo', hsolo, hunwound, hreading, hbeside⟩ :=
      Action.exists_perform_of_passes hpasses hready' hsends hsoloSends htables hperform hblocked
    rw [hsolo]
    cases outcome with
    | returned b =>
      cases hstep
      exact ⟨_, solo', seen, rfl, hnext b, hreading _ hseen, hbeside⟩
    | unwound fault =>
      cases hstep
      obtain rfl := hstarts (hunwound fault rfl)
      exact ⟨_, solo', none, rfl, .unwind fault, hreading _ hseen, hbeside⟩
    | blocked => exact (hblocked rfl).elim
  | load i hnext _ =>
    cases hstep
    exact ⟨_, solo, _, rfl, hnext _ _ (htables i),
      fun j table heq => by cases heq; exact ⟨rfl, (hready _ _ rfl).held i rfl⟩, hstill⟩
  | @put α i read table table' next next' hagree hothers hnext _ =>
    cases hstep
    obtain ⟨hread, hheld⟩ := hseen i read rfl
    refine ⟨_, _, _, rfl, hnext (), ?_, Store.beside_modify htables ⟨hagree, ?_, 0, rfl, rfl⟩⟩
    · rintro j table'' heq
      cases heq
      rw [Store.table_modify_self, Store.shard_modify_self]
      exact ⟨rfl, hheld⟩
    · rw [show (store.shard i).table = read from hread]
      exact hothers
  | release i access hnext _ =>
    cases hstep
    exact ⟨_, _, _, rfl, hnext (), by rintro _ _ ⟨⟩,
      Store.beside_modify htables (.still (htables i) rfl rfl rfl rfl)⟩
  | withOwn change hnext _ =>
    cases hstep
    exact ⟨_, solo, _, rfl, hnext _, hseen, hstill⟩
  | @attempt α β seen part part' next next' hpart hnext ihpart _ =>
    simp only [Process.step?] at hstep ⊢
    split at hstep
    · next result hended =>
      cases hstep
      obtain ⟨rfl, rfl⟩ := hpart.eq_of_ended? hended
      rw [hended]
      exact ⟨_, solo, none, rfl, hnext result, hseen, hstill⟩
    · next hended =>
      obtain ⟨⟨part₁, store₁, own₁⟩, hstep', heq⟩ := Option.map_eq_some_iff.mp hstep
      cases heq
      obtain ⟨part₁', solo', seen', hsolo, hmirrors, hreading, hbeside⟩ :=
        ihpart hready hseen hstep'
      rw [hpart.ended?_eq_none hended, hsolo]
      exact ⟨_, solo', seen', rfl, .attempt hmirrors hnext, hreading, hbeside⟩
  | @callback α β seen i part next next' hpart hnext _ =>
    simp only [Process.step?] at hstep ⊢
    split at hstep
    · next result hended =>
      cases hstep
      exact ⟨_, solo, seen, rfl, hnext result, hseen, hstill⟩
    · obtain ⟨⟨part₁, store₁, own₁⟩, hstep', heq⟩ := Option.map_eq_some_iff.mp hstep
      cases heq
      obtain ⟨hpart₁, rfl, hsolo⟩ := hpart.step? hstep' solo
      rw [hsolo]
      exact ⟨_, solo, seen, rfl, .callback i hpart₁ hnext, hseen, hstill⟩

end Process

end ShardStore
