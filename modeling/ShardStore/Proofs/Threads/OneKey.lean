import Mathlib.Data.List.Perm.Subperm
import ShardStore.Proofs.Threads.InTurn

/-!
# Calls in turn about one key

A call about one key finds what the last one about this key left, whatever happens to other keys
meanwhile. So calls in turn are told apart by keys: those about one key tell and leave what they do
on a single value (`InTurn.oneKey`), and what becomes of combined values, of insertions that are to
come first, and of values handed out is read off there.
-/

namespace ShardStore

namespace KeyCall

variable {S V : Type}

/-- What a call tells if it finds `held` under its key, and what it leaves there. -/
def onValue (held : Option V) (own : S) : KeyCall S V → Answer V × Option V
  | keyed (.set _ value) => (.nothing, some value)
  | keyed (.setIfAbsent _ value) => (.flag held.isNone, some (held.getD value))
  | keyed (.get _) => (.value held, held)
  | keyed (.has _) => (.flag held.isSome, held)
  | keyed (.remove _) => (.nothing, none)
  | keyed (.pop _) => (.value held, none)
  | upsert _ given combine =>
    match (combine held given own).1 with
    | .ok value => (.stored value, some value)
    | .error fault => (.fault fault, held)

/-- On a table, a call finds and leaves what is under its key. -/
theorem finish_eq_onValue (call : KeyCall S V) (table : Table V) (own : S) :
    (Answer.ofResult (call.finish table own).result, (call.finish table own).table[call.key]?) =
      call.onValue table[call.key]? own := by
  cases call with
  | keyed call =>
    cases call with
    | setIfAbsent key value =>
      simp only [finish, Answer.ofResult, Keyed.tell, Keyed.answer, Keyed.after, KeyCall.key,
        Keyed.key, onValue, Table.contains_eq_isSome]
      cases hheld : table[key]? with
      | none => simp only [Option.isSome_none, Bool.not_false, Bool.false_eq_true, if_false,
          Table.lookup_insert, if_true, Option.isNone_none, Option.getD_none]
      | some old => simp only [Option.isSome_some, Bool.not_true, if_true, hheld, Option.isNone_some,
          Option.getD_some]
    | set key value => exact congrArg (Prod.mk _) ((Table.lookup_insert ..).trans (if_pos rfl))
    | get key => rfl
    | has key => rfl
    | remove key => exact congrArg (Prod.mk _) ((Table.lookup_erase ..).trans (if_pos rfl))
    | pop key => exact congrArg (Prod.mk _) ((Table.lookup_erase ..).trans (if_pos rfl))
  | upsert key given combine =>
    rcases hcombine : combine table[key]? given own with ⟨result, own'⟩
    simp only [finish, onValue, KeyCall.key, hcombine]
    cases result with
    | ok value => exact congrArg (Prod.mk _) ((Table.lookup_insert ..).trans (if_pos rfl))
    | error fault => rfl

/-- Other keys keep their values. -/
theorem lookup_finish_of_ne {call : KeyCall S V} {key : String} (h : call.key ≠ key) (table : Table V)
    (own : S) : (call.finish table own).table[key]? = table[key]? := by
  cases call with
  | keyed call => exact call.lookup_after_of_ne h table
  | upsert k given combine =>
    rcases hcombine : combine table[k]? given own with ⟨result, own'⟩
    simp only [finish, hcombine]
    cases result with
    | ok value => exact (Table.lookup_insert ..).trans (if_neg h)
    | error fault => rfl

end KeyCall

/-- The calls about one key. -/
def madeOn {S V : Type} (key : String) (made : List (Made S V)) : List (Made S V) :=
  made.filter fun m => m.call.key = key

theorem madeOn_concat_of_eq {S V : Type} {key : String} {m : Made S V} (h : m.call.key = key)
    (made : List (Made S V)) : madeOn key (made ++ [m]) = madeOn key made ++ [m] := by
  rw [madeOn, List.filter_append, List.filter_singleton, decide_eq_true h]
  rfl

theorem madeOn_concat_of_ne {S V : Type} {key : String} {m : Made S V} (h : m.call.key ≠ key)
    (made : List (Made S V)) : madeOn key (made ++ [m]) = madeOn key made := by
  rw [madeOn, List.filter_append, List.filter_singleton, decide_eq_false h]
  exact List.append_nil _

/-- Calls on one value, one after another. -/
inductive OneKey {S V : Type} (initial : Option V) : List (Made S V) → Option V → Prop where
  | start : OneKey initial [] initial
  | call {made : List (Made S V)} {held : Option V} (h : OneKey initial made held) (t : Nat)
      (call : KeyCall S V) (own : S) :
      OneKey initial (made ++ [⟨t, call, (call.onValue held own).1⟩]) (call.onValue held own).2

/-- **Calls in turn are calls in turn about each key.** -/
theorem InTurn.oneKey {σ S V : Type} {n : Nat} {store last : Store σ V n} {owns owns' : List S}
    {made : List (Made S V)} {send : String → Except Fault (Fin n)} {key : String} {i : Fin n}
    (h : InTurn store owns made last owns') (hrest : store.AtRest) (hsends : store.SendsBy send)
    (hsend : send key = .ok i) : last.AtRest ∧ last.SendsBy send ∧
      OneKey (store.table i)[key]? (madeOn key made) (last.table i)[key]? := by
  induction h with
  | start => exact ⟨hrest, hsends, .start⟩
  | @call made store' store'' owns' t call answer own own' h hown hrun ih =>
    obtain ⟨hrest', hsends', hone⟩ := ih
    obtain ⟨routing, hroute, hsends''⟩ := hsends'.exists_route_eq call.key
    cases hplace : send call.key with
    | error fault =>
      rw [hplace] at hroute
      rw [KeyCall.run_answered_of_error call hroute] at hrun
      cases hrun
      have hne : call.key ≠ key := by
        intro heq
        rw [← heq, hplace] at hsend
        cases hsend
      rw [madeOn_concat_of_ne hne]
      exact ⟨hrest', hsends'', hone⟩
    | ok j =>
      rw [hplace] at hroute
      rw [KeyCall.run_answered hrest' call hroute] at hrun
      cases hrun
      refine ⟨fun k => ?_, hsends''.congr rfl rfl, ?_⟩
      · rw [Store.shard_modify]
        split
        · exact hrest' k
        · exact hrest' k
      · by_cases hkey : call.key = key
        · obtain rfl : j = i := by
            rw [hkey, hsend] at hplace
            exact (Except.ok.inj hplace).symm
          have hvalue := call.finish_eq_onValue (store'.table j) own
          have hnext := hone.call t call own
          rw [hkey] at hvalue
          rw [← hvalue] at hnext
          rw [madeOn_concat_of_eq hkey, Store.table_modify_self]
          exact hnext
        · rw [madeOn_concat_of_ne hkey]
          by_cases hji : j = i
          · subst hji
            rw [Store.table_modify_self, KeyCall.leave, KeyCall.lookup_finish_of_ne hkey]
            exact hone
          · rw [Store.table_modify_ne _ hji]
            exact hone

/-! ## What follows for one key -/

namespace Made

variable {S V : Type}

/-- The value that a call has stored. -/
def stored? (m : Made S V) : Option V :=
  match m.call, m.answer with
  | .keyed (.set _ value), .nothing => some value
  | .keyed (.setIfAbsent _ value), .flag true => some value
  | .upsert _ _ _, .stored value => some value
  | _, _ => none

/-- The value that a call has taken out for its caller. -/
def handed? (m : Made S V) : Option V :=
  match m.call, m.answer with
  | .keyed (.pop _), .value held => held
  | _, _ => none

/-- It was to insert, and has inserted. -/
def wins (m : Made S V) : Bool :=
  match m.call, m.answer with
  | .keyed (.setIfAbsent _ _), .flag inserted => inserted
  | _, _ => false

end Made

namespace KeyCall

variable {S V : Type}

/-- It takes its key out. -/
def removes : KeyCall S V → Bool
  | keyed (.remove _) => true
  | keyed (.pop _) => true
  | _ => false

/-- It inserts where nothing is. -/
def insertsFirst : KeyCall S V → Bool
  | keyed (.setIfAbsent _ _) => true
  | _ => false

/-- It puts a combination under its key, which depends on the old value. -/
def Combines (f : Option V → V) : KeyCall S V → Prop
  | keyed _ => False
  | upsert _ given combine => ∀ old own, (combine old given own).1 = .ok (f old)

end KeyCall

namespace OneKey

variable {S V : Type} {initial held : Option V} {made : List (Made S V)}

/-- What a call hands out and leaves is what it found or stored. -/
theorem subperm_of_call (t : Nat) (call : KeyCall S V) (held : Option V) (own : S) :
    let m : Made S V := ⟨t, call, (call.onValue held own).1⟩
    (m.handed?.toList ++ (call.onValue held own).2.toList).Subperm
      (held.toList ++ m.stored?.toList) := by
  cases call with
  | keyed call =>
    cases call with
    | set key value => exact (List.sublist_append_right held.toList [value]).subperm
    | setIfAbsent key value => cases held <;> exact List.Subperm.refl _
    | get key => exact List.perm_append_comm.subperm
    | has key => exact List.perm_append_comm.subperm
    | remove key => exact List.nil_subperm
    | pop key => exact List.Subperm.refl _
  | upsert key given combine =>
    simp only [KeyCall.onValue]
    cases (combine held given own).1 with
    | ok value => exact (List.sublist_append_right held.toList [value]).subperm
    | error fault => exact List.perm_append_comm.subperm

/-- **No value is handed out twice**: each one was there at the start or was stored for it, and what
is left has not been handed out. -/
theorem handed_subperm (h : OneKey initial made held) :
    (made.filterMap Made.handed? ++ held.toList).Subperm
      (initial.toList ++ made.filterMap Made.stored?) := by
  induction h with
  | start => exact List.perm_append_comm.subperm
  | @call made held h t call own ih =>
    have hcall := subperm_of_call t call held own
    set m : Made S V := ⟨t, call, (call.onValue held own).1⟩
    have hone (f : Made S V → Option V) : [m].filterMap f = (f m).toList := by
      rw [List.filterMap_cons]
      cases f m <;> rfl
    have hthen := (List.subperm_append_left (made.filterMap Made.handed?)).mpr hcall
    have hbefore := (List.subperm_append_right m.stored?.toList).mpr ih
    rw [List.filterMap_append, List.filterMap_append, hone, hone, List.append_assoc]
    rw [List.append_assoc, List.append_assoc] at hbefore
    exact hthen.trans hbefore

theorem countP_wins_concat (made : List (Made S V)) (m : Made S V) :
    (made ++ [m]).countP Made.wins = made.countP Made.wins + m.wins.toNat := by
  rw [List.countP_append, List.countP_singleton]
  cases m.wins <;> rfl

/-- An insertion into nothing leaves something, and only removals take it out. -/
theorem wins_le_of_call (t : Nat) {call : KeyCall S V} (hkeep : call.removes = false)
    (held : Option V) (own : S) :
    (Made.wins ⟨t, call, (call.onValue held own).1⟩).toNat + held.isSome.toNat ≤
      (call.onValue held own).2.isSome.toNat := by
  cases call with
  | keyed call =>
    cases call with
    | set key value => cases held <;> simp [Made.wins, KeyCall.onValue]
    | setIfAbsent key value => cases held <;> simp [Made.wins, KeyCall.onValue]
    | get key => simp [Made.wins, KeyCall.onValue]
    | has key => simp [Made.wins, KeyCall.onValue]
    | remove key => cases hkeep
    | pop key => cases hkeep
  | upsert key given combine =>
    simp only [KeyCall.onValue]
    cases (combine held given own).1 with
    | ok value => cases held <;> simp [Made.wins]
    | error fault => simp [Made.wins]

/-- **Without removals, at most one insertion into nothing is made.** -/
theorem countP_wins_le (h : OneKey none made held) (hkeep : ∀ m ∈ made, m.call.removes = false) :
    made.countP Made.wins ≤ held.isSome.toNat := by
  induction h with
  | start => exact Nat.le_refl _
  | @call made held h t call own ih =>
    have hbefore := ih fun m hmem => hkeep m (List.mem_append_left _ hmem)
    have hcall := wins_le_of_call t (hkeep _ List.mem_concat_self) held own
    rw [countP_wins_concat]
    exact (Nat.add_comm .. ▸ Nat.add_le_add_left hbefore _).trans hcall

/-- Where nothing else stores, whatever is there was inserted. -/
theorem countP_wins_eq (h : OneKey none made held)
    (honly : ∀ m ∈ made, m.call.insertsFirst = true ∨ m.call.access = .shared) :
    made.countP Made.wins = held.isSome.toNat := by
  induction h with
  | start => rfl
  | @call made held h t call own ih =>
    have hbefore := ih fun m hmem => honly m (List.mem_append_left _ hmem)
    have hcall : call.insertsFirst = true ∨ call.access = .shared := honly _ List.mem_concat_self
    rw [countP_wins_concat, hbefore]
    cases call with
    | keyed call =>
      cases call with
      | setIfAbsent key value => cases held <;> rfl
      | get key => rfl
      | has key => rfl
      | _ => rcases hcall with hcall | hcall <;> cases hcall
    | upsert => rcases hcall with hcall | hcall <;> cases hcall

/-- An insertion into nothing finds something or leaves something, which stays until it is removed. -/
theorem isSome_of_insertsFirst (h : OneKey initial made held)
    (hkeep : ∀ m ∈ made, m.call.removes = false)
    (hsome : ∃ m ∈ made, m.call.insertsFirst = true) : held.isSome := by
  induction h with
  | start =>
    obtain ⟨m, hmem, -⟩ := hsome
    cases hmem
  | @call made held h t call own ih =>
    have hcall := wins_le_of_call t (hkeep _ List.mem_concat_self) held own
    obtain ⟨m, hmem, hinserts⟩ := hsome
    rcases List.mem_append.mp hmem with hmem | hmem
    · have hheld := ih (fun m hmem => hkeep m (List.mem_append_left _ hmem)) ⟨m, hmem, hinserts⟩
      by_contra hnone
      rw [hheld, Bool.eq_false_of_not_eq_true hnone] at hcall
      exact Nat.not_succ_le_zero _ hcall
    · obtain rfl := List.mem_singleton.mp hmem
      cases call with
      | keyed call =>
        cases call with
        | setIfAbsent key value => rfl
        | _ => cases hinserts
      | upsert => cases hinserts

/-- **No combination is lost**: where all others look up, the value is made by all of them. -/
theorem eq_foldl_of_combines {f : KeyCall S V → Option V → V} (h : OneKey initial made held)
    (hcombines : ∀ m ∈ made, m.call.access = .shared ∨ m.call.Combines (f m.call)) :
    held = ((made.map Made.call).filter fun call => call.access = .exclusive).foldl
      (fun old call => some (f call old)) initial := by
  induction h with
  | start => rfl
  | @call made held h t call own ih =>
    have hbefore := ih fun m hmem => hcombines m (List.mem_append_left _ hmem)
    have hcall : call.access = .shared ∨ call.Combines (f call) := hcombines _ List.mem_concat_self
    rw [List.map_append, List.filter_append, List.foldl_append, ← hbefore]
    cases call with
    | keyed call =>
      cases call with
      | get key => rfl
      | has key => rfl
      | _ => rcases hcall with hcall | hcall <;> cases hcall
    | upsert key given combine =>
      rcases hcall with hcall | hcall
      · cases hcall
      · simp only [KeyCall.onValue, hcall held own]
        rfl

end OneKey

end ShardStore
