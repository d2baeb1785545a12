import ShardStore.Proofs.PlainMap
import ShardStore.Unsharded

/-!
# A map in one piece and a store change places

An `Unsharded` map and a store offer five calls in common. A `CommonCall` can be made on either, as
`CommonCall.onUnsharded` on the one and as `CommonCall.call` on the other. The tie between them is
the one table that a store represents (`Store.Represents`): `CommonCall.onTable_call` says that a
call does to that table what it does to the unsharded map's, and the answers that the two kinds of
map share are never lists, so answers that agree are equal (`CommonCall.eq_of_agrees`).
-/

namespace ShardStore

/-- The calls that an unsharded map and a store have in common. -/
inductive CommonCall (V : Type) where
  | store (key : String) (value : V)
  | lookup (key : String)
  | delete (key : String)
  | size
  | isEmpty

namespace CommonCall

variable {S V : Type}

/-- What a call answers on an unsharded map, and the map that it leaves. -/
def onUnsharded : CommonCall V → Unsharded V → Answer V × Unsharded V
  | .store key value, map => (.nothing, map.store key value)
  | .lookup key, map => (.value (map.lookup key), map)
  | .delete key, map => (.nothing, map.delete key)
  | .size, map => (.size map.size, map)
  | .isEmpty, map => (.flag map.isEmpty, map)

/-- What calls answer on an unsharded map, one after another. -/
def allOnUnsharded : List (CommonCall V) → Unsharded V → List (Answer V) × Unsharded V
  | [], map => ([], map)
  | call :: rest, map =>
    let (answer, map) := call.onUnsharded map
    let (answers, map) := allOnUnsharded rest map
    (answer :: answers, map)

/-- The call on a store. -/
def call : CommonCall V → Call S V
  | .store key value => .keyed (.set key value)
  | .lookup key => .keyed (.get key)
  | .delete key => .keyed (.remove key)
  | .size => .count
  | .isEmpty => .isEmpty

/-- The call on a store does to one table what the call on an unsharded map does to its table. -/
theorem onTable_call (common : CommonCall V) (map : Unsharded V) (own : S) :
    (common.call : Call S V).onTable map.table own =
      ((common.onUnsharded map).1, (common.onUnsharded map).2.table, own) := by
  cases common with
  | isEmpty =>
    rw [call, Call.onTable, onUnsharded, Unsharded.isEmpty, Std.ExtTreeMap.isEmpty_eq_size_beq_zero]
  | _ => rfl

/-- So do calls one after another. -/
theorem allOnTable_map_call (calls : List (CommonCall V)) (map : Unsharded V) (own : S) :
    Call.allOnTable (calls.map call) map.table own =
      ((allOnUnsharded calls map).1, (allOnUnsharded calls map).2.table, own) := by
  induction calls generalizing map with
  | nil => rfl
  | cons common rest ih =>
    simp only [List.map_cons, Call.allOnTable, allOnUnsharded, onTable_call, ih]

/-- An unsharded map answers no list. -/
theorem eq_of_agrees {common : CommonCall V} {map : Unsharded V} {answer : Answer V}
    (h : answer.Agrees (common.onUnsharded map).1) : answer = (common.onUnsharded map).1 := by
  cases common <;> cases h <;> rfl

/-- Answers that agree with those of an unsharded map are those answers. -/
theorem eq_of_agree {calls : List (CommonCall V)} {map : Unsharded V} {answers : List (Answer V)}
    (h : List.Forall₂ Answer.Agrees answers (allOnUnsharded calls map).1) :
    answers = (allOnUnsharded calls map).1 := by
  induction calls generalizing map answers with
  | nil => exact List.forall₂_nil_right_iff.mp h
  | cons common rest ih =>
    obtain ⟨answer, answers, hagrees, hrest, rfl⟩ := List.forall₂_cons_right_iff.mp h
    rw [eq_of_agrees hagrees, ih hrest]
    rfl

end CommonCall

/-- An empty map is empty whatever room it was given. -/
theorem Unsharded.eq_of_withCapacity {V : Type} {capacity : UInt64} {valueWidth : Nat}
    {map : Unsharded V} (h : withCapacity capacity valueWidth = .ok map) : map = {} := by
  rw [withCapacity] at h
  cases hcheck : checkCapacity (keyWidth + valueWidth) capacity with
  | error fault => rw [hcheck] at h; cases h
  | ok _ => rw [hcheck] at h; cases h; rfl

/-- **An unsharded map and a store are interchangeable.** Take a new unsharded map with any room and
a new store of any configuration whose routing answers from the hash and the number of shards
alone, and make the same calls on both. The store answers every one of them, at each position what
the unsharded map answers there, and its shards end up with the unsharded map's entries, each in
one of them. -/
theorem session_answers_as_unsharded {σ S V : Type} {mode : Threading} {config : Config σ}
    {store : Store σ V config.shards} {capacity : UInt64} {valueWidth : Nat} {map : Unsharded V}
    (hstore : Store.ofConfig config = .ok store) (hrouting : config.routing.Stateless)
    (hmap : Unsharded.withCapacity capacity valueWidth = .ok map) (me : ThreadId)
    (calls : List (CommonCall V)) (own : S) :
    ∃ after, (Call.session (calls.map CommonCall.call) : Program mode S V _).run me store own =
        (.returned (CommonCall.allOnUnsharded calls map).1, after, own) ∧
      after.entries.Perm (CommonCall.allOnUnsharded calls map).2.table.toList := by
  obtain rfl := Unsharded.eq_of_withCapacity hmap
  obtain ⟨place, hempty⟩ := Store.exists_represents_of_ofConfig hstore hrouting
  obtain ⟨answers, after, hrun, hagree, -, hafter⟩ :=
    hempty.exists_run_session mode me (calls.map CommonCall.call) own
  have hcalls := CommonCall.allOnTable_map_call calls ({} : Unsharded V) own
  simp only at hcalls
  rw [hcalls] at hrun hagree hafter
  refine ⟨after, ?_, hafter.perm_entries⟩
  rw [hrun, CommonCall.eq_of_agree hagree]

/-- Three shards counted from the last one down and tables with room, against a map with none:
overwriting, a key that is not there, removals, and an empty map before and after. -/
theorem session_answers_as_unsharded_mirrored :
    let config : Config Unit :=
      { shardCount := 3, hasher := .fx, capacity := some 8, routing := .custom Router.mirror () }
    let calls : List (CommonCall Nat) := [
      .isEmpty, .store "a" 1, .store "b" 2, .store "a" 3, .store "" 4, .lookup "a", .lookup "c",
      .size, .delete "c", .delete "a", .lookup "a", .size, .delete "b", .delete "", .isEmpty]
    ∃ (store : Store Unit Nat config.shards) (map : Unsharded Nat),
      Store.ofConfig config = .ok store ∧ config.routing.Stateless ∧
      Unsharded.withCapacity 0 = .ok map ∧
      (CommonCall.allOnUnsharded calls map).1 = [
        .flag true, .nothing, .nothing, .nothing, .nothing, .value (some 3), .value none,
        .size 3, .nothing, .nothing, .value none, .size 2, .nothing, .nothing, .flag true] ∧
      ∃ after, (Call.session (calls.map CommonCall.call) : Program .single Unit Nat _).run ⟨0, 0⟩
          store () = (.returned (CommonCall.allOnUnsharded calls map).1, after, ()) ∧
        after.entries.Perm (CommonCall.allOnUnsharded calls map).2.table.toList := by
  have hmirror : (Routing.custom Router.mirror ()).Stateless :=
    ⟨fun hash count => count - 1 - hash % count, fun _ _ _ => rfl⟩
  have hmap : (Unsharded.withCapacity 0 : Except Fault (Unsharded Nat)) = .ok {} := rfl
  exact ⟨_, {}, rfl, hmirror, hmap, rfl, session_answers_as_unsharded rfl hmirror hmap ⟨0, 0⟩ _ ()⟩

end ShardStore
