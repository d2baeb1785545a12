import ShardStore.Concurrent.Threads
import ShardStore.Proofs.Courses.Own
import ShardStore.Proofs.Placement
import ShardStore.Proofs.Tables

/-!
# Where keys are filed

A router that answers from the hash and the number of shards alone sends a key to the same shard
whenever it is asked. A course files keys accordingly if every table that it puts into a shard has
only keys that are sent there, provided that the router has named the shards as it does and that the
tables which the course has read were filed so themselves (`Process.Files`). All programs do
(`Program.files_process`): a key is inserted only in a shard that the router has just named for it.
-/

namespace ShardStore

variable {σ S V α β γ : Type} {mode : Threading} {n : Nat} {send : String → Except Fault (Fin n)}

/-- Every key of a table is sent to shard `i`. -/
def Table.SentTo (table : Table V) (send : String → Except Fault (Fin n)) (i : Fin n) : Prop :=
  ∀ key ∈ table, send key = .ok i

namespace Table.SentTo

variable {table : Table V} {i : Fin n}

theorem empty : Table.SentTo (∅ : Table V) send i := fun _ hmem =>
  (Std.ExtTreeMap.not_mem_empty hmem).elim

theorem insert (h : table.SentTo send i) {key : String} (hkey : send key = .ok i) (value : V) :
    Table.SentTo (table.insert key value) send i := by
  intro k hmem
  rcases Std.ExtTreeMap.mem_insert.mp hmem with heq | hmem
  · obtain rfl := Std.LawfulEqCmp.compare_eq_iff_eq.mp heq
    exact hkey
  · exact h k hmem

theorem erase (h : table.SentTo send i) (key : String) :
    Table.SentTo (table.erase key) send i :=
  fun k hmem => h k (Std.ExtTreeMap.mem_of_mem_erase hmem)

end Table.SentTo

/-- The router says to each key what `send` says, and every shard holds keys that are sent to it
only. -/
structure Store.FiledBy (store : Store σ V n) (send : String → Except Fault (Fin n)) : Prop where
  sends : store.SendsBy send
  tables : ∀ i, (store.table i).SentTo send i

namespace Action

/-- A table that is put into a shard has keys that are sent there only. -/
def Files (send : String → Except Fault (Fin n)) : Action n V β → Prop
  | .put i table => table.SentTo send i
  | _ => True

/-- A result that the action can have on a store that is filed. -/
def Tells (send : String → Except Fault (Fin n)) : Action n V β → β → Prop
  | .route key, i => send key = .ok i
  | .load i, table => table.SentTo send i
  | _, _ => True

/-- A reading action has nothing to file. -/
theorem Reads.files {action : Action n V β} (h : action.Reads) : action.Files send := by
  cases action with
  | put => exact (h.2 trivial).elim
  | _ => trivial

/-- **An action that files leaves a store filed**, and tells what it can tell of one. -/
theorem Files.perform {action : Action n V β} (h : action.Files send) (me : ThreadId)
    {store : Store σ V n} (hfiled : store.FiledBy send) :
    (action.perform me store).2.FiledBy send ∧
      ∀ b, (action.perform me store).1 = .returned b → action.Tells send b := by
  cases action with
  | route key =>
    obtain ⟨routing, hroute, hsends⟩ := hfiled.sends.exists_route_eq key
    rw [Action.perform, hroute]
    cases hsend : send key with
    | ok i =>
      refine ⟨⟨hsends, hfiled.tables⟩, fun b hb => ?_⟩
      obtain rfl := Outcome.returned.inj hb
      exact hsend
    | error fault => exact ⟨⟨hsends, hfiled.tables⟩, by rintro _ ⟨⟩⟩
  | load i =>
    refine ⟨hfiled, fun table htable => ?_⟩
    obtain rfl := Outcome.returned.inj htable
    exact hfiled.tables i
  | put i table =>
    refine ⟨⟨hfiled.sends.congr rfl rfl, fun j => ?_⟩, fun _ _ => trivial⟩
    rw [Action.perform, Store.table, Store.shard_modify]
    split
    · next hij => subst hij; exact h
    · exact hfiled.tables j
  | _ =>
    refine ⟨⟨?_, fun j => ?_⟩, fun _ _ => trivial⟩
    · exact hfiled.sends.congr (Action.hasher_perform ..)
        (Action.routing_perform _ _ _ (Option.some_ne_none _))
    · rw [Action.table_perform _ _ _ id]
      exact hfiled.tables j

end Action

namespace Process

/-- Every table that the course puts into a shard has keys that are sent there only, if the actions
before it tell what they can tell of a store that is filed. -/
def Files (send : String → Except Fault (Fin n)) : {α : Type} → Process mode n S V α → Prop
  | _, .done _ => True
  | _, .unwind _ => True
  | _, .act action next => action.Files send ∧ ∀ b, action.Tells send b → (next b).Files send
  | _, .withOwn _ next => ∀ b, (next b).Files send
  | _, .attempt _ part next => part.Files send ∧ ∀ result, (next result).Files send
  | _, .onThread _ _ part next => part.Files send ∧ ∀ result, (next result).Files send

theorem Files.bind {p : Process mode n S V α} {f : α → Process mode n S V β} (h : p.Files send)
    (hf : ∀ a, (f a).Files send) : (p.bind f).Files send := by
  induction p with
  | done value => exact hf value
  | unwind => trivial
  | act action next ih => exact ⟨h.1, fun b hb => ih b (h.2 b hb) hf⟩
  | withOwn change next ih => exact fun b => ih b (h b) hf
  | attempt scope part next _ ih => exact ⟨h.1, fun result => ih result (h.2 result) hf⟩
  | onThread may own part next _ ih => exact ⟨h.1, fun result => ih result (h.2 result) hf⟩

/-- An action, and what follows if it tells what it can. -/
theorem files_perform_bind {action : Action n V β} {f : β → Process mode n S V α}
    (h : action.Files send) (hf : ∀ b, action.Tells send b → (f b).Files send) :
    ((perform action).bind f).Files send :=
  ⟨h, hf⟩

theorem files_perform {action : Action n V β} (h : action.Files send) :
    (perform action : Process mode n S V β).Files send :=
  ⟨h, fun _ _ => trivial⟩

theorem files_mapM {f : γ → Process mode n S V β} (h : ∀ a, (f a).Files send) (list : List γ) :
    (list.mapM f).Files send := by
  induction list with
  | nil => trivial
  | cons a list ih =>
    rw [List.mapM_cons]
    exact (h a).bind fun b => ih.bind fun bs => trivial

/-- A course that only reads files nothing. -/
theorem Only.files {p : Process mode n S V α} (h : p.Only False Reading) : p.Files send := by
  induction p with
  | done => trivial
  | unwind => trivial
  | act action next ih => exact ⟨h.1.files, fun b _ => ih b (h.2 b)⟩
  | withOwn change next ih => exact fun b => ih b (h b)
  | attempt scope part next ihpart ih =>
    cases scope with
    | none => exact ⟨ihpart h.1, fun result => ih result (h.2 result)⟩
    | some i => exact h.1.elim
  | onThread may own part next ihpart ih => exact ⟨ihpart h.1, fun result => ih result (h.2 result)⟩

theorem files_request (i : Fin n) (access : Access) :
    (request i access : Process mode n S V Unit).Files send :=
  (only_request i access).reading.files

/-- A callback that files may run under any lock. -/
theorem files_underMark {callback : Process mode n S V β} (h : callback.Files send) (i : Fin n)
    (access : Access) : (underMark i access callback).Files send := by
  refine files_perform_bind trivial fun _ _ => ⟨h, fun result => ?_⟩
  cases result with
  | ok b => exact files_perform_bind trivial fun _ _ => trivial
  | error fault =>
    exact files_perform_bind trivial fun _ _ => files_perform_bind trivial fun _ _ => trivial

/-- An update stores its key in the shard that the router has named for it. -/
theorem files_update (key : String) {callback : Option V → Process mode n S V (V × β)}
    (h : ∀ old, (callback old).Files send) : (update key callback).Files send := by
  refine files_perform_bind trivial fun i hkey => ?_
  refine (files_request i .exclusive).bind fun _ => ?_
  refine files_perform_bind trivial fun table htable => ?_
  refine (files_underMark (h table[key]?) i .exclusive).bind fun stored => ?_
  refine files_perform_bind (htable.insert hkey stored.1) fun _ _ => ?_
  exact files_perform_bind trivial fun _ _ => files_perform_bind trivial fun _ _ => trivial

theorem files_visit {callback : String → V → Process mode n S V β}
    (h : ∀ key value, (callback key value).Files send) : (visit callback).Files send := by
  refine (files_mapM (fun i => ?_) _).bind fun _ => trivial
  refine (files_request i .shared).bind fun _ => files_perform_bind trivial fun table _ => ?_
  refine (files_underMark (files_mapM (fun entry => ?_) _) i .shared).bind fun visited => ?_
  · exact (h entry.1 entry.2).bind fun b => trivial
  · exact files_perform_bind trivial fun _ _ => trivial

end Process

namespace Operation

open Process

theorem files_lookup (key : String) :
    (lookup key : Process mode n S V (Option V)).Files send := by
  refine files_perform_bind trivial fun i _ => ?_
  refine (only_capture i).reading.files.bind fun table => ?_
  exact files_perform_bind trivial fun _ _ => trivial

theorem files_removal (key : String) :
    (removal key : Process mode n S V (Option V)).Files send := by
  refine files_perform_bind trivial fun i _ => (files_request i .exclusive).bind fun _ => ?_
  refine files_perform_bind trivial fun table htable => ?_
  refine files_perform_bind (htable.erase key) fun _ _ => files_perform_bind trivial fun _ _ => ?_
  simp only
  split
  · exact files_perform_bind trivial fun _ _ => trivial
  · trivial

/-- Every operation files what it stores. -/
theorem files_process (operation : Operation V β) :
    (operation.process : Process mode n S V β).Files send := by
  cases operation with
  | set key value =>
    refine files_perform_bind trivial fun i hkey => ?_
    refine (files_request i .exclusive).bind fun _ => ?_
    refine files_perform_bind trivial fun table htable => ?_
    refine files_perform_bind (htable.insert hkey value) fun _ _ => ?_
    exact files_perform_bind trivial fun _ _ => files_perform trivial
  | setIfAbsent key value =>
    refine files_perform_bind trivial fun i hkey => ?_
    refine (files_request i .exclusive).bind fun _ => ?_
    refine files_perform_bind trivial fun table htable => ?_
    split
    · exact files_perform_bind trivial fun _ _ => trivial
    · refine files_perform_bind (htable.insert hkey value) fun _ _ => ?_
      exact files_perform_bind trivial fun _ _ => files_perform_bind trivial fun _ _ => trivial
  | get key => exact files_lookup key
  | has key => exact (files_lookup key).bind fun _ => trivial
  | remove key => exact (files_removal key).bind fun _ => trivial
  | pop key => exact files_removal key
  | shardIndex key => exact files_perform_bind trivial fun _ _ => trivial
  | _ => exact (only_process rfl).files

end Operation

/-- **Every program files what it stores**, also from inside callbacks and on threads that it
starts. -/
theorem Program.files_process (program : Program mode S V α) :
    (program.process : Process mode n S V α).Files send := by
  induction program with
  | done => trivial
  | unwind => trivial
  | call operation next ih => exact operation.files_process.bind ih
  | withOwn change next ih => exact ih
  | update key callback next ihcallback ih => exact (Process.files_update key ihcallback).bind ih
  | visit callback next ihcallback ih => exact (Process.files_visit ihcallback).bind ih
  | attempt part next ihpart ih => exact ⟨ihpart, ih⟩
  | onThread may own part next ihpart ih => exact ⟨ihpart, ih⟩

/-- **One step of a course that files leaves a store filed**, and a course that files. -/
theorem Process.Files.step? {me : ThreadId} {p p' : Process mode n S V α}
    {store store' : Store σ V n} {own own' : S} (h : p.Files send) (hfiled : store.FiledBy send)
    (hstep : p.step? me store own = some (p', store', own')) :
    p'.Files send ∧ store'.FiledBy send := by
  induction p generalizing me own own' with
  | done => cases hstep
  | unwind => cases hstep
  | act action next _ =>
    obtain ⟨hfiled', htells⟩ := h.1.perform me hfiled
    simp only [Process.step?] at hstep
    split at hstep
    · next b _ hperform =>
      cases hstep
      rw [hperform] at hfiled' htells
      exact ⟨h.2 b (htells b rfl), hfiled'⟩
    · next hperform =>
      cases hstep
      rw [hperform] at hfiled'
      exact ⟨trivial, hfiled'⟩
    · cases hstep
  | withOwn change next _ =>
    cases hstep
    exact ⟨h _, hfiled⟩
  | attempt scope part next ihpart _ =>
    simp only [Process.step?] at hstep
    split at hstep
    · next result _ =>
      cases hstep
      exact ⟨h.2 result, hfiled⟩
    · obtain ⟨⟨part', store₁, own₁⟩, hstep', heq⟩ := Option.map_eq_some_iff.mp hstep
      cases heq
      obtain ⟨hpart', hfiled'⟩ := ihpart h.1 hstep'
      exact ⟨⟨hpart', h.2⟩, hfiled'⟩
  | onThread may fresh part next ihpart _ =>
    simp only [Process.step?] at hstep
    split at hstep
    · next result _ =>
      cases hstep
      exact ⟨h.2 result, hfiled⟩
    · obtain ⟨⟨part', store₁, own₁⟩, hstep', heq⟩ := Option.map_eq_some_iff.mp hstep
      cases heq
      obtain ⟨hpart', hfiled'⟩ := ihpart h.1 hstep'
      exact ⟨⟨hpart', h.2⟩, hfiled'⟩

end ShardStore
