import Mathlib.Algebra.Order.Group.Multiset
import Mathlib.Data.Multiset.MapFold
import ShardStore.Proofs.Calls.Keyed

/-!
# What several threads count

Events are counted in whichever order, so what a tally has counted is told by a multiset of events.
What several threads have still to count is the sum of what each one has, and one step changes what
one of them has.
-/

namespace ShardStore

theorem Tally.bump_bump (tally : Tally) (counter counter' : Counter) :
    (tally.bump counter).bump counter' = (tally.bump counter').bump counter := by
  cases counter <;> cases counter' <;> rfl

instance : RightCommutative Tally.bump := ⟨Tally.bump_bump⟩

/-- Counts several events, in whichever order. -/
def Tally.plus (tally : Tally) (events : Multiset Counter) : Tally :=
  events.foldl Tally.bump tally

theorem Tally.plus_zero (tally : Tally) : tally.plus 0 = tally := rfl

theorem Tally.plus_add (tally : Tally) (events events' : Multiset Counter) :
    tally.plus (events + events') = (tally.plus events).plus events' :=
  Multiset.foldl_add ..

theorem Tally.plus_singleton (tally : Tally) (counter : Counter) :
    tally.plus {counter} = tally.bump counter := rfl

theorem Tally.plus_coe (tally : Tally) (counters : List Counter) :
    tally.plus (counters : Multiset Counter) = tally.bumpAll counters := rfl

/-- Two tallies that agree once each has counted some events agree once each has counted others,
after they have counted some now. -/
theorem Tally.plus_exchange {tally tally' : Tally}
    {now now' own own' later later' others others' extra : Multiset Counter}
    (h : tally.plus (own + others) = tally'.plus (own' + others'))
    (hnow : now + later = own + extra) (hnow' : now' + later' = own' + extra) :
    (tally.plus now).plus (later + others) = (tally'.plus now').plus (later' + others') := by
  have hextra : (tally.plus (own + others)).plus extra = (tally'.plus (own' + others')).plus extra :=
    congrArg (Tally.plus · extra) h
  rw [← plus_add, ← plus_add] at hextra ⊢
  rwa [← add_assoc, ← add_assoc, hnow, hnow', add_right_comm own, add_right_comm own']

/-- Events that make no difference one by one make none together. -/
theorem Tally.plus_sum_congr {tally : Tally} {all all' : List (Multiset Counter)}
    (h : List.Forall₂ (fun events events' => tally.plus events = tally.plus events') all all') :
    tally.plus all.sum = tally.plus all'.sum := by
  induction h with
  | nil => rfl
  | @cons events events' rest rest' hhead _ ih =>
    calc tally.plus (events :: rest).sum
        = (tally.plus events).plus rest.sum := by rw [List.sum_cons, plus_add]
      _ = (tally.plus events').plus rest.sum := by rw [hhead]
      _ = (tally.plus rest.sum).plus events' := by rw [← plus_add, add_comm, plus_add]
      _ = (tally.plus rest'.sum).plus events' := by rw [ih]
      _ = tally.plus (events' :: rest').sum := by rw [List.sum_cons, ← plus_add, add_comm]

/-- One element of a list exchanged, and the sums over the list before and after. -/
theorem exists_sum_set {α M : Type*} [AddCommMonoid M] (f : α → M) {list : List α} {t : Nat} {a : α}
    (h : list[t]? = some a) : ∃ others, (list.map f).sum = f a + others ∧
      ∀ b, ((list.set t b).map f).sum = f b + others := by
  induction list generalizing t with
  | nil => cases h
  | cons head rest ih =>
    cases t with
    | zero =>
      obtain rfl : head = a := Option.some.inj h
      exact ⟨(rest.map f).sum, List.sum_cons, fun b => List.sum_cons⟩
    | succ t =>
      obtain ⟨others, hsum, hset⟩ := ih h
      refine ⟨f head + others, ?_, fun b => ?_⟩
      · rw [List.map_cons, List.sum_cons, hsum, add_left_comm]
      · rw [List.set_cons_succ, List.map_cons, List.sum_cons, hset, add_left_comm]

end ShardStore
