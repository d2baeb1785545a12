import Mathlib.Data.List.TakeWhile
import ShardStore.Proofs.Calls.Whole
import ShardStore.Proofs.Courses.Amid
import ShardStore.Proofs.Visits

/-!
# Whole-map calls that meet a mark

A whole-map call that a callback makes goes from shard to shard as always, until it looks for marks
on a shard whose callback is running. `Process.RefusedAfter` says what the call has done by then, in
terms of its own actions, so in every interleaving. Where its thread is alone, what it leaves is one
counted request at each of the shards that it passed (`Store.passed`): `run_captureAll_inside` and
the equations after it hold inside any scopes, and say both how such a call returns and how it is
refused.
-/

namespace ShardStore

/-! ## The shards in front of one -/

/-- The shards in front of a shard, in order. -/
def shardsBelow {n : Nat} (m : Fin n) : List (Fin n) :=
  (List.finRange n).take m

theorem mem_shardsBelow {n : Nat} {m i : Fin n} : i ∈ shardsBelow m ↔ i < m := by
  rw [shardsBelow, List.mem_take_iff_getElem]
  constructor
  · rintro ⟨k, hk, rfl⟩
    rw [List.getElem_finRange, Fin.lt_def]
    exact lt_of_lt_of_le hk (Nat.min_le_left ..)
  · intro hlt
    refine ⟨i, ?_, by rw [List.getElem_finRange]; rfl⟩
    rw [List.length_finRange]
    exact lt_min hlt i.isLt

theorem nodup_shardsBelow {n : Nat} (m : Fin n) : (shardsBelow m).Nodup :=
  (List.nodup_finRange n).sublist (List.take_sublist ..)

/-- The shards in front of one, that one, and the shards behind it. -/
theorem finRange_eq_shardsBelow {n : Nat} (m : Fin n) :
    List.finRange n = shardsBelow m ++ m :: (List.finRange n).drop (m + 1) := by
  have hm : m.val < (List.finRange n).length := by
    rw [List.length_finRange]
    exact m.isLt
  have hget : (List.finRange n)[m.val] = m := List.getElem_finRange _
  calc List.finRange n = shardsBelow m ++ (List.finRange n).drop m :=
        (List.take_append_drop ..).symm
    _ = shardsBelow m ++ m :: (List.finRange n).drop (m + 1) := by
      rw [List.drop_eq_getElem_cons hm, hget]

/-! ## What a refused call does itself -/

namespace Action

variable {σ V β : Type} {n : Nat} {me : ThreadId} {store : Store σ V n} {calls : List (Fin n)}

/-- An action that does not end a course of a thread that has marked the shards `calls`, and that
leaves its marks alone. -/
def Passes (calls : List (Fin n)) : Action n V β → Prop
  | .route _ => False
  | .check i => i ∉ calls
  | .mark _ => False
  | .unmark _ => False
  | _ => True

theorem Passes.not_unwound {action : Action n V β} (h : action.Passes calls)
    (hmarks : ∀ i, me ∈ (store.shard i).markers ↔ i ∈ calls) {fault : Fault}
    {store' : Store σ V n} : action.perform me store ≠ (.unwound fault, store') := by
  intro hperform
  cases action with
  | check i =>
    have hclear : me ∉ (store.shard i).markers := fun hmark => h ((hmarks i).mp hmark)
    rw [perform, if_neg hclear] at hperform
    cases hperform
  | acquire i access =>
    simp only [perform] at hperform
    split at hperform <;> cases hperform
  | route key => exact h
  | mark i => exact h
  | unmark i => exact h
  | _ => cases hperform

theorem Passes.markers_perform {action : Action n V β} (h : action.Passes calls) (i : Fin n) :
    ((action.perform me store).2.shard i).markers = (store.shard i).markers := by
  have hmodify (j : Fin n) {change : Shard V → Shard V}
      (hchange : ∀ shard, (change shard).markers = shard.markers) :
      ((store.modify j change).shard i).markers = (store.shard i).markers := by
    rw [Store.shard_modify]
    split
    · exact hchange _
    · rfl
  cases action with
  | route key => exact h.elim
  | mark j => exact h.elim
  | unmark j => exact h.elim
  | check j => rw [perform]; split <;> rfl
  | acquire j access =>
    rw [perform]
    split
    · exact hmodify j fun _ => rfl
    · rfl
  | load j => rfl
  | counted j counter => rfl
  | bump j counter => exact hmodify j fun _ => rfl
  | release j access => exact hmodify j fun _ => rfl
  | put j table => exact hmodify j fun _ => rfl

end Action

namespace Process

variable {σ S V α β : Type} {mode : Threading} {n : Nat} {me : ThreadId} {calls : List (Fin n)}
  {acts : List (Act n V)}

/-- Wherever thread `me` is running callbacks under the locks of the shards `calls`, and whatever
other threads do meanwhile, the course performs the listed actions in order, waiting for locks as it
must, is refused as re-entrant by the last of them, and does nothing else. -/
def RefusedAfter (me : ThreadId) (calls : List (Fin n)) (acts : List (Act n V))
    (p : Process mode n S V α) : Prop :=
  ∀ ⦃σ : Type⦄ ⦃store store' : Store σ V n⦄ ⦃own own' : S⦄ ⦃acts' : List (Act n V)⦄
    ⦃p' : Process mode n S V α⦄, (∀ i, me ∈ (store.shard i).markers ↔ i ∈ calls) →
    Amid me p store own acts' p' store' own' →
    own' = own ∧
      (p'.ended? = none ∧ acts' <+: acts ∧ acts' ≠ acts ∨ p' = .unwind .reentrant ∧ acts' = acts)

/-- A check where a callback is running ends the course. -/
theorem refusedAfter_check {i : Fin n} (hi : i ∈ calls) (rest : Unit → Process mode n S V α) :
    RefusedAfter me calls [⟨_, .check i⟩] ((perform (.check i)).bind rest) := by
  intro σ store store' own own' acts' p' hmarks hamid
  have hrefused (store₁ : Store σ V n) (hothers : store.Meanwhile me store₁) :
      (Action.check i : Action n V Unit).perform me store₁ = (.unwound .reentrant, store₁) := by
    have hmark : me ∈ (store₁.shard i).markers := (hothers.mem_markers i).mpr ((hmarks i).mpr hi)
    rw [Action.perform, if_pos hmark]
  rcases hamid.of_perform_bind with ⟨rfl, rfl, rfl, -⟩ |
    ⟨b, acts₁, store₁, store₂, hothers, hperform, -⟩ |
    ⟨fault, store₁, store₂, hothers, hperform, rfl, rfl, rfl, -⟩
  · exact ⟨rfl, .inl ⟨rfl, List.nil_prefix, (List.cons_ne_nil _ []).symm⟩⟩
  · rw [hrefused store₁ hothers] at hperform
    cases hperform
  · rw [hrefused store₁ hothers] at hperform
    cases hperform
    exact ⟨rfl, .inr ⟨rfl, rfl⟩⟩

/-- An action that does not end the course, in front of one that is refused later. -/
theorem RefusedAfter.perform_bind {action : Action n V β} {rest : β → Process mode n S V α}
    (hpasses : action.Passes calls) (h : ∀ b, RefusedAfter me calls acts (rest b)) :
    RefusedAfter me calls (⟨β, action⟩ :: acts) ((perform action).bind rest) := by
  intro σ store store' own own' acts' p' hmarks hamid
  have hmarks₁ {store₁ : Store σ V n} (hothers : store.Meanwhile me store₁) (i : Fin n) :
      me ∈ (store₁.shard i).markers ↔ i ∈ calls := (hothers.mem_markers i).trans (hmarks i)
  rcases hamid.of_perform_bind with ⟨rfl, rfl, rfl, -⟩ |
    ⟨b, acts₁, store₁, store₂, hothers, hperform, hrest, rfl⟩ |
    ⟨fault, store₁, store₂, hothers, hperform, -⟩
  · exact ⟨rfl, .inl ⟨rfl, List.nil_prefix, nofun⟩⟩
  · have hmarks₂ (i : Fin n) : me ∈ (store₂.shard i).markers ↔ i ∈ calls := by
      have hsame : ((action.perform me store₁).2.shard i).markers = (store₁.shard i).markers :=
        hpasses.markers_perform i
      rw [hperform] at hsame
      rw [hsame]
      exact hmarks₁ hothers i
    obtain ⟨rfl, ⟨hended, hfront, hne⟩ | ⟨rfl, rfl⟩⟩ := h b hmarks₂ hrest
    · exact ⟨rfl, .inl ⟨hended, (List.prefix_cons_inj _).mpr hfront,
        fun heq => hne (List.cons.inj heq).2⟩⟩
    · exact ⟨rfl, .inr ⟨rfl, rfl⟩⟩
  · exact (hpasses.not_unwound (hmarks₁ hothers) hperform).elim

/-- What would come after a refused course does not happen. -/
theorem RefusedAfter.bind {p : Process mode n S V β} (h : RefusedAfter me calls acts p)
    (f : β → Process mode n S V α) : RefusedAfter me calls acts (p.bind f) := by
  intro σ store store' own own' acts' q hmarks hamid
  rcases hamid.of_bind with ⟨p', hpart, rfl⟩ | ⟨b, acts₁, acts₂, store₁, own₁, hpart, -⟩
  · obtain ⟨rfl, ⟨hended, hfront, hne⟩ | ⟨rfl, rfl⟩⟩ := h hmarks hpart
    · exact ⟨rfl, .inl ⟨ended?_bind hended, hfront, hne⟩⟩
    · exact ⟨rfl, .inr ⟨rfl, rfl⟩⟩
  · obtain ⟨-, ⟨hended, -⟩ | ⟨hunwind, -⟩⟩ := h hmarks hpart
    · cases hended
    · cases hunwind

/-- What reading the table of one shard consists of. -/
def captureActs (i : Fin n) : List (Act n V) :=
  [⟨_, .check i⟩, ⟨_, .bump i .acquisitions⟩, ⟨_, .acquire i .shared⟩, ⟨_, .load i⟩,
    ⟨_, .release i .shared⟩]

theorem RefusedAfter.capture_bind {i : Fin n} (hi : i ∉ calls)
    {rest : Table V → Process mode n S V α} (h : ∀ table, RefusedAfter me calls acts (rest table)) :
    RefusedAfter me calls (captureActs i ++ acts) ((capture i).bind rest) := by
  have hbody : (capture i : Process mode n S V (Table V)).bind rest =
      (perform (.check i)).bind fun _ => (perform (.bump i .acquisitions)).bind fun _ =>
        (perform (.acquire i .shared)).bind fun _ => (perform (.load i)).bind fun table =>
          (perform (.release i .shared)).bind fun _ => rest table := rfl
  rw [hbody]
  refine .perform_bind hi fun _ => .perform_bind trivial fun _ => .perform_bind trivial fun _ => ?_
  exact .perform_bind trivial fun table => .perform_bind trivial fun _ => h table

/-- Reading tables up to a shard whose callback is running. -/
theorem refusedAfter_captureAll {m : Fin n} (hm : m ∈ calls) (hleast : ∀ i ∈ calls, m ≤ i)
    (rest : List (Table V) → Process mode n S V α) :
    RefusedAfter me calls ((shardsBelow m).flatMap captureActs ++ [⟨_, .check m⟩])
      (captureAll.bind rest) := by
  have hlist (front : List (Fin n)) (hfront : ∀ i ∈ front, i ∉ calls)
      (rest : List (Table V) → Process mode n S V α) :
      RefusedAfter me calls (front.flatMap captureActs ++ [⟨_, .check m⟩])
        (((front ++ m :: (List.finRange n).drop (m + 1)).mapM capture).bind rest) := by
    induction front generalizing rest with
    | nil =>
      rw [List.nil_append, List.mapM_cons, bind_eq, bind_assoc]
      exact refusedAfter_check hm _
    | cons i front ih =>
      rw [List.cons_append, List.mapM_cons, bind_eq, bind_assoc, List.flatMap_cons,
        List.append_assoc]
      refine RefusedAfter.capture_bind (hfront i List.mem_cons_self) fun table => ?_
      rw [bind_eq, bind_assoc]
      exact ih (fun j hj => hfront j (List.mem_cons_of_mem _ hj)) _
  rw [captureAll, finRange_eq_shardsBelow m]
  exact hlist _
    (fun i hi hcall => absurd (hleast i hcall) (not_le.mpr (mem_shardsBelow.mp hi))) rest

/-- Looking for marks up to a shard whose callback is running. -/
theorem refusedAfter_checkAll {m : Fin n} (hm : m ∈ calls) (hleast : ∀ i ∈ calls, m ≤ i)
    (rest : Unit → Process mode n S V α) :
    RefusedAfter me calls ((shardsBelow m).map (fun i => ⟨_, .check i⟩) ++ [⟨_, .check m⟩])
      (checkAll.bind rest) := by
  have hlist (front : List (Fin n)) (hfront : ∀ i ∈ front, i ∉ calls) :
      RefusedAfter me calls (front.map (fun i => ⟨_, .check i⟩) ++ [⟨_, .check m⟩])
        (((front ++ m :: (List.finRange n).drop (m + 1)).forM fun i =>
          (perform (.check i) : Process mode n S V Unit)).bind rest) := by
    induction front with
    | nil => exact refusedAfter_check hm _
    | cons i front ih =>
      exact .perform_bind (hfront i List.mem_cons_self) fun _ =>
        ih fun j hj => hfront j (List.mem_cons_of_mem _ hj)
  rw [checkAll, finRange_eq_shardsBelow m]
  exact hlist _ fun i hi hcall => absurd (hleast i hcall) (not_le.mpr (mem_shardsBelow.mp hi))

end Process

/-! ## What it leaves when its thread is alone -/

namespace Store

variable {σ V : Type} {n : Nat} {store : Store σ V n} {me : ThreadId}
  {scopes : List (Fin n × Access)} {shards : List (Fin n)}

/-- Of some shards in a row, those in front of the first that the thread has marked. -/
def passed (store : Store σ V n) (me : ThreadId) (shards : List (Fin n)) : List (Fin n) :=
  shards.takeWhile fun i => me ∉ (store.shard i).markers

/-- The fault that going through some shards in a row ends with, if the thread has marked one. -/
def refusal? (store : Store σ V n) (me : ThreadId) (shards : List (Fin n)) : Option Fault :=
  if ∃ i ∈ shards, me ∈ (store.shard i).markers then some .reentrant else none

/-- Only marks decide which shards are passed. -/
theorem passed_congr (me : ThreadId) {store' : Store σ V n}
    (h : ∀ i, (store'.shard i).markers = (store.shard i).markers) (shards : List (Fin n)) :
    store'.passed me shards = store.passed me shards ∧
      store'.refusal? me shards = store.refusal? me shards := by
  simp only [passed, refusal?, h, and_self]

theorem refusal?_nil : store.refusal? me [] = none :=
  if_neg fun ⟨_, hi, _⟩ => List.not_mem_nil hi

theorem passed_cons_of_mem {i : Fin n} (h : me ∈ (store.shard i).markers) (rest : List (Fin n)) :
    store.passed me (i :: rest) = [] ∧ store.refusal? me (i :: rest) = some .reentrant :=
  ⟨List.takeWhile_cons_of_neg (by simpa using h),
    if_pos ⟨i, List.mem_cons_self, h⟩⟩

theorem passed_cons_of_notMem {i : Fin n} (h : me ∉ (store.shard i).markers) (rest : List (Fin n)) :
    store.passed me (i :: rest) = i :: store.passed me rest ∧
      store.refusal? me (i :: rest) = store.refusal? me rest := by
  refine ⟨List.takeWhile_cons_of_pos (by simpa using h), ?_⟩
  simp only [refusal?, List.mem_cons, exists_eq_or_imp, h, false_or]

/-- Where no mark is in the way, all shards are passed. -/
theorem passed_of_refusal?_eq_none (h : store.refusal? me shards = none) :
    store.passed me shards = shards := by
  have hnone : ¬∃ i ∈ shards, me ∈ (store.shard i).markers := by
    intro hsome
    rw [refusal?, if_pos hsome] at h
    cases h
  refine List.takeWhile_eq_self_iff.mpr fun i hi => ?_
  exact decide_eq_true fun hmark => hnone ⟨i, hi, hmark⟩

theorem nodup_passed (h : shards.Nodup) : (store.passed me shards).Nodup :=
  h.sublist (List.takeWhile_sublist _)

/-- Inside scopes, the shards in front of the first one with a scope are passed. -/
theorem Inside.passed_finRange (h : store.Inside me scopes) {m : Fin n}
    (hm : m ∈ scopes.map Prod.fst) (hleast : ∀ i ∈ scopes.map Prod.fst, m ≤ i) :
    store.passed me (List.finRange n) = shardsBelow m ∧
      store.refusal? me (List.finRange n) = some .reentrant := by
  have hmark := h.mem_markers hm
  refine ⟨?_, if_pos ⟨m, List.mem_finRange m, hmark⟩⟩
  have hfree : ∀ i ∈ shardsBelow m, decide (me ∉ (store.shard i).markers) = true := by
    intro i hi
    have hout : i ∉ scopes.map Prod.fst := fun hscope =>
      absurd (hleast i hscope) (not_le.mpr (mem_shardsBelow.mp hi))
    exact decide_eq_true (h.admits hout .shared).1
  rw [passed, finRange_eq_shardsBelow m, List.takeWhile_append_of_pos hfree,
    List.takeWhile_cons_of_neg (by simpa using hmark), List.append_nil]

theorem markers_modify_requested (store : Store σ V n) (i j : Fin n) :
    ((store.modify i Shard.requested).shard j).markers = (store.shard j).markers := by
  rw [shard_modify]
  split <;> rfl

theorem lock_modify_requested (store : Store σ V n) (i j : Fin n) :
    ((store.modify i Shard.requested).shard j).lock = (store.shard j).lock := by
  rw [shard_modify]
  split <;> rfl

/-- Counting a request does not lead out of the scopes. -/
theorem Inside.requested (h : store.Inside me scopes) (i : Fin n) :
    (store.modify i Shard.requested).Inside me scopes where
  apart := h.apart
  around j access hmem := by
    rw [lock_modify_requested, markers_modify_requested]
    exact h.around j access hmem
  elsewhere j hj := by
    rw [Shard.AtRest, lock_modify_requested, markers_modify_requested]
    exact h.elsewhere j hj

theorem Inside.requestAll (h : store.Inside me scopes) (shards : List (Fin n)) :
    (store.requestAll shards).Inside me scopes := by
  induction shards generalizing store with
  | nil => exact h
  | cons i rest ih => exact ih (h.requested i)

/-- A shard without a mark admits every request. -/
theorem Inside.admits_of_notMem (h : store.Inside me scopes) {i : Fin n}
    (hmark : me ∉ (store.shard i).markers) (access : Access) : store.Admits me i access :=
  h.admits (fun hi => hmark (h.mem_markers hi)) access

end Store

namespace Process

variable {σ S V α β : Type} {mode : Threading} {n : Nat} {me : ThreadId}
  {store store' : Store σ V n} {scopes : List (Fin n × Access)} {own own' : S}

/-- A course with a rest, where it is known how the course ends. -/
theorem run_bind_of_unless {p : Process mode n S V α} {fault : Option Fault} {a : α}
    (h : p.run me store own = (.unless fault a, store', own')) (f : α → Process mode n S V β) :
    (p.bind f).run me store own =
      fault.elim ((f a).run me store' own') fun fault => (.unwound fault, store', own') := by
  rw [run_bind, h]
  cases fault <;> rfl

/-- Reading the tables of some shards inside some scopes. -/
theorem run_mapM_capture_inside (h : store.Inside me scopes) (shards : List (Fin n)) (own : S) :
    (shards.mapM capture : Process mode n S V (List (Table V))).run me store own =
      (.unless (store.refusal? me shards) (shards.map store.table),
        store.requestAll (store.passed me shards), own) := by
  induction shards generalizing store with
  | nil =>
    rw [Store.refusal?_nil]
    rfl
  | cons i rest ih =>
    rw [List.mapM_cons, bind_eq]
    by_cases hmark : me ∈ (store.shard i).markers
    · obtain ⟨hpassed, hrefusal⟩ := Store.passed_cons_of_mem hmark rest
      rw [hpassed, hrefusal, run_capture_bind_refused me hmark]
      rfl
    · obtain ⟨hpassed, hrefusal⟩ := Store.passed_cons_of_notMem hmark rest
      obtain ⟨hpassed', hrefusal'⟩ :=
        Store.passed_congr me (store.markers_modify_requested i) rest
      obtain ⟨hclear, hlock⟩ := h.admits_of_notMem hmark .shared
      rw [run_capture_bind me hclear hlock,
        show (fun shard : Shard V => { shard with tally := shard.tally.bump .acquisitions }) =
          Shard.requested from rfl, bind_eq, run_bind_of_unless (ih (h.requested i)), hpassed',
        hrefusal', hpassed, hrefusal]
      have htables : rest.map (store.modify i Shard.requested).table = rest.map store.table :=
        List.map_congr_left fun j _ => Store.table_modify_requested store i j
      cases store.refusal? me rest with
      | none => rw [htables]; rfl
      | some fault => rfl

/-- Reading every table inside some scopes. -/
theorem run_captureAll_inside (h : store.Inside me scopes) (own : S) :
    (captureAll : Process mode n S V (List (Table V))).run me store own =
      (.unless (store.refusal? me (List.finRange n)) ((List.finRange n).map store.table),
        store.requestAll (store.passed me (List.finRange n)), own) :=
  run_mapM_capture_inside h (List.finRange n) own

/-- Looking for marks on every shard leaves no trace. -/
theorem run_checkAll_inside (store : Store σ V n) (me : ThreadId) (own : S) :
    (checkAll : Process mode n S V Unit).run me store own =
      (.unless (store.refusal? me (List.finRange n)) (), store, own) := by
  have hlist (shards : List (Fin n)) :
      (shards.forM fun i => (perform (.check i) : Process mode n S V Unit)).run me store own =
        (.unless (store.refusal? me shards) (), store, own) := by
    induction shards with
    | nil =>
      rw [Store.refusal?_nil]
      rfl
    | cons i rest ih =>
      have hbody : (i :: rest).forM (fun i => (perform (.check i) : Process mode n S V Unit)) =
          (perform (.check i)).bind fun _ => rest.forM fun i => perform (.check i) := rfl
      rw [hbody]
      by_cases hmark : me ∈ (store.shard i).markers
      · rw [run_check_bind_refused me hmark, (Store.passed_cons_of_mem hmark rest).2]
        rfl
      · rw [run_check_bind me hmark, (Store.passed_cons_of_notMem hmark rest).2]
        exact ih
  exact hlist (List.finRange n)

/-- Where a mark is in the way, no worker is started. -/
theorem run_collectAll_bind_refused {fault : Fault}
    (hrefusal : store.refusal? me (List.finRange n) = some fault)
    (rest : List (Table V) → Process mode n S V α) (own : S) :
    (collectAll.bind rest).run me store own = (.unwound fault, store, own) := by
  rw [collectAll, bind_eq, bind_assoc, run_bind_of_unless (run_checkAll_inside store me own),
    hrefusal]
  rfl

end Process

end ShardStore
