import Mathlib.Data.Nat.Bitwise
import Mathlib.Data.Nat.Digits.Lemmas
import ShardStore.Hash

/-!
# Near misses hash apart

Both hashes fold words into a state. A step multiplies by an odd number, so it loses nothing of the
state, and nothing of the word (`Mixes`). Two strings that differ in one place then hash apart: the
words in front of the difference lead to the same state, the difference makes two states of it, and
no word behind it brings the two together again (`Mixes.foldl_ne`).

`fx` folds words of several bytes. Which bytes make up a word depends on the length of the string
alone, and a word tells its bytes (`littleEndian_inj`), so strings of one length that differ in one
byte are cut into rows of words that differ in one word (`NearMiss.words`).
-/

namespace ShardStore

/-! ## Lists that differ in one place -/

/-- Two lists of one length that differ in exactly one place. -/
def NearMiss {α : Type} (xs ys : List α) : Prop :=
  xs.length = ys.length ∧ ∃! i : Nat, xs[i]? ≠ ys[i]?

section nearMiss

variable {α β : Type} {xs ys : List α}

/-- What stands in front of the place and behind it is the same. -/
theorem NearMiss.exists_append (h : NearMiss xs ys) :
    ∃ front a b back, a ≠ b ∧ xs = front ++ a :: back ∧ ys = front ++ b :: back := by
  obtain ⟨hlength, i, hdiffer, honly⟩ := h
  have hsame {j : Nat} (hj : j ≠ i) : xs[j]? = ys[j]? := by
    by_contra hdiffers
    exact hj (honly j hdiffers)
  have hi : i < xs.length := by
    by_contra hout
    exact hdiffer (by rw [List.getElem?_eq_none (by omega), List.getElem?_eq_none (by omega)])
  have hi' : i < ys.length := hlength ▸ hi
  have hfront : xs.take i = ys.take i := by
    refine List.ext_getElem? fun j => ?_
    rw [List.getElem?_take, List.getElem?_take]
    split
    · exact hsame (by omega)
    · rfl
  have hback : xs.drop (i + 1) = ys.drop (i + 1) := by
    refine List.ext_getElem? fun j => ?_
    rw [List.getElem?_drop, List.getElem?_drop]
    exact hsame (by omega)
  refine ⟨xs.take i, xs[i], ys[i], xs.drop (i + 1), ?_, ?_, ?_⟩
  · rw [List.getElem?_eq_getElem hi, List.getElem?_eq_getElem hi'] at hdiffer
    exact fun heq => hdiffer (congrArg some heq)
  · rw [← List.drop_eq_getElem_cons hi, List.take_append_drop]
  · rw [hfront, hback, ← List.drop_eq_getElem_cons hi', List.take_append_drop]

/-- Put the other way round. -/
theorem nearMiss_append_cons {a b : α} (h : a ≠ b) (front back : List α) :
    NearMiss (front ++ a :: back) (front ++ b :: back) := by
  refine ⟨by simp, front.length, by simpa using h, fun i hdiffer => ?_⟩
  by_contra hi
  refine hdiffer ?_
  rcases Nat.lt_or_gt_of_ne hi with hlt | hgt
  · rw [List.getElem?_append_left hlt, List.getElem?_append_left hlt]
  · obtain ⟨k, rfl⟩ := Nat.exists_eq_add_of_lt hgt
    rw [List.getElem?_append_right (by omega), List.getElem?_append_right (by omega),
      show front.length + k + 1 - front.length = k + 1 by omega, List.getElem?_cons_succ,
      List.getElem?_cons_succ]

theorem NearMiss.ne (h : NearMiss xs ys) : xs ≠ ys := by
  rintro rfl
  obtain ⟨-, i, hdiffer, -⟩ := h
  exact hdiffer rfl

theorem nearMiss_cons_of_ne {a b : α} (h : a ≠ b) (back : List α) :
    NearMiss (a :: back) (b :: back) :=
  nearMiss_append_cons h [] back

theorem NearMiss.cons (h : NearMiss xs ys) (a : α) : NearMiss (a :: xs) (a :: ys) := by
  obtain ⟨front, b, c, back, hne, rfl, rfl⟩ := h.exists_append
  exact nearMiss_append_cons hne (a :: front) back

theorem NearMiss.map (h : NearMiss xs ys) {f : α → β} (hf : Function.Injective f) :
    NearMiss (xs.map f) (ys.map f) := by
  obtain ⟨front, a, b, back, hne, rfl, rfl⟩ := h.exists_append
  rw [List.map_append, List.map_append]
  exact nearMiss_append_cons (hf.ne hne) (front.map f) (back.map f)

theorem NearMiss.append_right (h : NearMiss xs ys) (back : List α) :
    NearMiss (xs ++ back) (ys ++ back) := by
  obtain ⟨front, a, b, back', hne, rfl, rfl⟩ := h.exists_append
  rw [List.append_assoc, List.append_assoc]
  exact nearMiss_append_cons hne front (back' ++ back)

/-- Cut in two, the lists differ in one of the parts and agree in the other. -/
theorem NearMiss.take_drop (h : NearMiss xs ys) (k : Nat) :
    NearMiss (xs.take k) (ys.take k) ∧ xs.drop k = ys.drop k ∨
      xs.take k = ys.take k ∧ NearMiss (xs.drop k) (ys.drop k) := by
  obtain ⟨front, a, b, back, hne, rfl, rfl⟩ := h.exists_append
  rcases Nat.lt_or_ge front.length k with hlt | hge
  · -- The place is in the first part.
    obtain ⟨m, rfl⟩ := Nat.exists_eq_add_of_lt hlt
    have htake (c : α) : (front ++ c :: back).take (front.length + m + 1) =
        front ++ c :: back.take m := by
      rw [Nat.add_assoc, List.take_length_add_append, List.take_succ_cons]
    have hdrop (c : α) : (front ++ c :: back).drop (front.length + m + 1) = back.drop m := by
      rw [Nat.add_assoc, List.drop_length_add_append, List.drop_succ_cons]
    refine .inl ⟨?_, (hdrop a).trans (hdrop b).symm⟩
    rw [htake, htake]
    exact nearMiss_append_cons hne front (back.take m)
  · refine .inr ⟨?_, ?_⟩
    · rw [List.take_append_of_le_length hge, List.take_append_of_le_length hge]
    · rw [List.drop_append_of_le_length hge, List.drop_append_of_le_length hge]
      exact nearMiss_append_cons hne (front.drop k) back

end nearMiss

/-! ## Steps that lose nothing -/

/-- A step tells the state before from the word, and the word from the state before. -/
structure Mixes {σ α : Type} (step : σ → α → σ) : Prop where
  state : ∀ word, Function.Injective fun state => step state word
  word : ∀ state, Function.Injective (step state)

namespace Mixes

variable {σ α : Type} {step : σ → α → σ}

/-- The same words keep two states apart, and together. -/
theorem foldl_inj (h : Mixes step) (words : List α) {state state' : σ} :
    words.foldl step state = words.foldl step state' ↔ state = state' := by
  induction words generalizing state state' with
  | nil => exact Iff.rfl
  | cons word words ih =>
    rw [List.foldl_cons, List.foldl_cons, ih]
    exact (h.state word).eq_iff

/-- Words that differ in one place lead to different states. -/
theorem foldl_ne (h : Mixes step) {xs ys : List α} (hnear : NearMiss xs ys) (state : σ) :
    xs.foldl step state ≠ ys.foldl step state := by
  obtain ⟨front, a, b, back, hne, rfl, rfl⟩ := hnear.exists_append
  rw [List.foldl_append, List.foldl_append, List.foldl_cons, List.foldl_cons, Ne, h.foldl_inj]
  exact (h.word _).ne hne

end Mixes

namespace Fnv

/-- The multiplier is odd, so it has an inverse. -/
theorem prime_mul_inverse : prime * 899433627 = 1 := by decide

theorem mul_prime_injective : Function.Injective (· * prime) := fun hash hash' heq => by
  have hundone := congrArg (· * 899433627) heq
  simpa only [UInt32.mul_assoc, prime_mul_inverse, UInt32.mul_one] using hundone

theorem mixes_step : Mixes step where
  state byte _ _ heq := mul_prime_injective ((UInt32.xor_left_inj byte.toUInt32).mp heq)
  word hash _ _ heq := UInt8.toUInt32_inj.mp ((UInt32.xor_right_inj (hash * prime)).mp heq)

end Fnv

/-- A common suffix hides no difference between hashes, and makes none. -/
theorem fnv32_append_inj (front front' back : List UInt8) :
    fnv32 (front ++ back) = fnv32 (front' ++ back) ↔ fnv32 front = fnv32 front' := by
  rw [fnv32_append, fnv32_append]
  exact Fnv.mixes_step.foldl_inj back

theorem fnv32_ne {bytes bytes' : List UInt8} (h : NearMiss bytes bytes') :
    fnv32 bytes ≠ fnv32 bytes' :=
  Fnv.mixes_step.foldl_ne h Fnv.basis

namespace Fx

/-- The multiplier is odd, so it has an inverse. -/
theorem multiplier_mul_inverse : multiplier * 0x2040003d780970bd = 1 := by decide

theorem mul_multiplier_injective : Function.Injective (· * multiplier) := fun hash hash' heq => by
  have hundone := congrArg (· * 0x2040003d780970bd) heq
  simpa only [UInt64.mul_assoc, multiplier_mul_inverse, UInt64.mul_one] using hundone

/-- There are five bits above the low fifty-nine. -/
theorem high_lt (word : UInt64) : word.toNat / 2 ^ 59 < 2 ^ 5 := by
  have hword := word.toNat_lt
  omega

/-- The five high bits come in where the others made room. -/
theorem toNat_rotateLeft (word : UInt64) :
    (rotateLeft word turn).toNat = word.toNat % 2 ^ 59 * 2 ^ 5 + word.toNat / 2 ^ 59 := by
  have hleft : (word <<< turn).toNat = (word.toNat % 2 ^ 59) <<< 5 := by
    rw [UInt64.toNat_shiftLeft, show turn.toNat % 64 = 5 from rfl, Nat.shiftLeft_eq,
      Nat.shiftLeft_eq]
    omega
  have hright : (word >>> (64 - turn)).toNat = word.toNat / 2 ^ 59 := by
    rw [UInt64.toNat_shiftRight, show (64 - turn).toNat % 64 = 59 from rfl,
      Nat.shiftRight_eq_div_pow]
  rw [rotateLeft, UInt64.toNat_or, hleft, hright, ← Nat.shiftLeft_add_eq_or_of_lt (high_lt word),
    Nat.shiftLeft_eq]

theorem rotateLeft_injective : Function.Injective (rotateLeft · turn) := fun word word' heq => by
  have hnumbers : (rotateLeft word turn).toNat = (rotateLeft word' turn).toNat :=
    congrArg UInt64.toNat heq
  rw [toNat_rotateLeft, toNat_rotateLeft] at hnumbers
  have hhigh := high_lt word
  have hhigh' := high_lt word'
  obtain ⟨hlow, hsame⟩ : word.toNat % 2 ^ 59 = word'.toNat % 2 ^ 59 ∧
      word.toNat / 2 ^ 59 = word'.toNat / 2 ^ 59 := by
    generalize word.toNat % 2 ^ 59 = low, word.toNat / 2 ^ 59 = high at *
    generalize word'.toNat % 2 ^ 59 = low', word'.toNat / 2 ^ 59 = high' at *
    omega
  refine UInt64.toNat_inj.mp ?_
  rw [← Nat.div_add_mod word.toNat (2 ^ 59), hlow, hsame, Nat.div_add_mod]

theorem mixes_step : Mixes step where
  state word _ _ heq :=
    rotateLeft_injective ((UInt64.xor_left_inj word).mp (mul_multiplier_injective heq))
  word hash _ _ heq :=
    (UInt64.xor_right_inj (rotateLeft hash turn)).mp (mul_multiplier_injective heq)

/-! ## The words of a string -/

/-- Bytes are digits to the base 256. -/
theorem digit_lt (bytes : List UInt8) : ∀ digit ∈ bytes.map UInt8.toNat, digit < 256 :=
  fun digit hdigit => by
    obtain ⟨byte, -, rfl⟩ := List.mem_map.mp hdigit
    exact byte.toNat_lt

/-- As long as they fit, the bytes are the digits of the word. -/
theorem toNat_littleEndian {bytes : List UInt8} (h : bytes.length ≤ 8) :
    (littleEndian bytes).toNat = Nat.ofDigits 256 (bytes.map UInt8.toNat) := by
  induction bytes with
  | nil => rfl
  | cons byte rest ih =>
    rw [List.length_cons] at h
    -- What is shifted has at most seven bytes, so nothing is pushed out.
    have hrest : Nat.ofDigits 256 (rest.map UInt8.toNat) < 256 ^ 7 := by
      refine (Nat.ofDigits_lt_base_pow_length (by decide) (digit_lt rest)).trans_le ?_
      rw [List.length_map]
      exact Nat.pow_le_pow_right (by decide) (by omega)
    have hshift : (littleEndian rest <<< 8).toNat =
        Nat.ofDigits 256 (rest.map UInt8.toNat) <<< 8 := by
      rw [UInt64.toNat_shiftLeft, ih (by omega), show (8 : UInt64).toNat % 64 = 8 from rfl,
        Nat.shiftLeft_eq]
      exact Nat.mod_eq_of_lt (by omega)
    have hbyte : byte.toNat < 2 ^ 8 := byte.toNat_lt
    rw [littleEndian, UInt64.toNat_or, hshift, UInt8.toNat_toUInt64, Nat.lor_comm,
      ← Nat.shiftLeft_add_eq_or_of_lt hbyte, List.map_cons, Nat.ofDigits_cons, Nat.shiftLeft_eq]
    omega

/-- A word tells its bytes, if it is known how many there are. -/
theorem littleEndian_inj {bytes bytes' : List UInt8} (hlength : bytes.length = bytes'.length)
    (hfits : bytes.length ≤ 8) (h : littleEndian bytes = littleEndian bytes') : bytes = bytes' := by
  have hnumbers := congrArg UInt64.toNat h
  rw [toNat_littleEndian hfits, toNat_littleEndian (hlength ▸ hfits)] at hnumbers
  have hbytes := Nat.ofDigits_inj_of_len_eq (by decide) (by simpa using hlength)
    (digit_lt bytes) (digit_lt bytes') hnumbers
  exact List.map_injective_iff.mpr (fun _ _ => UInt8.toNat_inj.mp) hbytes

/-- Eight bytes make a word as long as there are eight. -/
theorem words_of_eight_le {bytes : List UInt8} (h : 8 ≤ bytes.length) :
    words bytes = littleEndian (bytes.take 8) :: words (bytes.drop 8) := by
  match bytes, h with
  | _ :: _ :: _ :: _ :: _ :: _ :: _ :: _ :: _, _ => rfl

/-- Four bytes make a word if there are four left. -/
theorem words_of_four_le {bytes : List UInt8} (h : 4 ≤ bytes.length) (hlt : bytes.length < 8) :
    words bytes = littleEndian (bytes.take 4) :: (bytes.drop 4).map UInt8.toUInt64 := by
  match bytes, h, hlt with
  | [_, _, _, _], _, _ => rfl
  | [_, _, _, _, _], _, _ => rfl
  | [_, _, _, _, _, _], _, _ => rfl
  | [_, _, _, _, _, _, _], _, _ => rfl

/-- Each of the last bytes makes a word. -/
theorem words_of_lt_four {bytes : List UInt8} (h : bytes.length < 4) :
    words bytes = bytes.map UInt8.toUInt64 := by
  match bytes, h with
  | [], _ => rfl
  | [_], _ => rfl
  | [_, _], _ => rfl
  | [_, _, _], _ => rfl

/-- A word made of the first bytes, in front of what is made of the others. -/
theorem nearMiss_littleEndian_cons {bytes bytes' : List UInt8} (h : NearMiss bytes bytes') {k : Nat}
    (hk : k ≤ 8) (rest : List UInt8 → List UInt64)
    (hrest : NearMiss (bytes.drop k) (bytes'.drop k) →
      NearMiss (rest (bytes.drop k)) (rest (bytes'.drop k))) :
    NearMiss (littleEndian (bytes.take k) :: rest (bytes.drop k))
      (littleEndian (bytes'.take k) :: rest (bytes'.drop k)) := by
  rcases h.take_drop k with ⟨hfront, hback⟩ | ⟨hfront, hback⟩
  · have hfits : (bytes.take k).length ≤ 8 := (List.length_take_le ..).trans hk
    rw [hback]
    refine nearMiss_cons_of_ne (fun heq => ?_) _
    exact hfront.ne (littleEndian_inj hfront.1 hfits heq)
  · rw [hfront]
    exact (hrest hback).cons _

end Fx

/-- Strings that differ in one byte are cut into rows of words that differ in one word. -/
theorem NearMiss.words {bytes bytes' : List UInt8} (h : NearMiss bytes bytes') :
    NearMiss (Fx.words bytes) (Fx.words bytes') := by
  have hlength := h.1
  have hwiden : Function.Injective UInt8.toUInt64 := fun _ _ => UInt8.toUInt64_inj.mp
  by_cases height : 8 ≤ bytes.length
  · have height' : 8 ≤ bytes'.length := hlength ▸ height
    rw [Fx.words_of_eight_le height, Fx.words_of_eight_le height']
    exact Fx.nearMiss_littleEndian_cons h (Nat.le_refl 8) Fx.words fun hback => hback.words
  · have hlt : bytes.length < 8 := Nat.lt_of_not_le height
    by_cases hfour : 4 ≤ bytes.length
    · have hfour' : 4 ≤ bytes'.length := hlength ▸ hfour
      rw [Fx.words_of_four_le hfour hlt, Fx.words_of_four_le hfour' (hlength ▸ hlt)]
      exact Fx.nearMiss_littleEndian_cons h (by decide) _ fun hback => hback.map hwiden
    · have hshort : bytes.length < 4 := Nat.lt_of_not_le hfour
      rw [Fx.words_of_lt_four hshort, Fx.words_of_lt_four (hlength ▸ hshort)]
      exact h.map hwiden
termination_by bytes.length
decreasing_by
  rw [List.length_drop]
  omega

theorem fx_ne {bytes bytes' : List UInt8} (h : NearMiss bytes bytes') : fx bytes ≠ fx bytes' :=
  Fx.mixes_step.foldl_ne (h.words.append_right [0xff]) 0

/-! ## The statement -/

/-- **Near misses hash apart.** Strings of one length that differ in exactly one byte, wherever it
is, have different hashes of either kind, and so keys are hashed apart that are spelled so. A common
suffix makes no difference: with it `fnv32` tells two strings apart exactly if it does so without. -/
theorem near_misses_hash_apart :
    (∀ bytes bytes' : List UInt8, NearMiss bytes bytes' →
      fnv32 bytes ≠ fnv32 bytes' ∧ fx bytes ≠ fx bytes') ∧
    (∀ key key' : String, NearMiss (keyBytes key) (keyBytes key') →
      Hasher.fnv32.hashKey key ≠ Hasher.fnv32.hashKey key' ∧
        Hasher.fx.hashKey key ≠ Hasher.fx.hashKey key') ∧
    ∀ front front' back : List UInt8,
      fnv32 (front ++ back) = fnv32 (front' ++ back) ↔ fnv32 front = fnv32 front' := by
  refine ⟨fun bytes bytes' h => ⟨fnv32_ne h, fx_ne h⟩, fun key key' h => ⟨?_, fx_ne h⟩,
    fnv32_append_inj⟩
  exact fun heq => fnv32_ne h (UInt32.toUInt64_inj.mp heq)

/-- Keys of thirteen bytes, which `fx` cuts into words of eight, four and one; the byte that differs
is in the second word. -/
theorem near_misses_hash_apart_in_the_second_word :
    NearMiss (keyBytes "session-4711é") (keyBytes "session-4721é") ∧
      Hasher.fnv32.hashKey "session-4711é" ≠ Hasher.fnv32.hashKey "session-4721é" ∧
      Hasher.fx.hashKey "session-4711é" ≠ Hasher.fx.hashKey "session-4721é" := by
  have hnear : NearMiss (keyBytes "session-4711é") (keyBytes "session-4721é") := by
    have hfirst : keyBytes "session-4711é" = keyBytes "session-47" ++ 0x31 :: keyBytes "1é" := by
      decide +kernel
    have hsecond : keyBytes "session-4721é" = keyBytes "session-47" ++ 0x32 :: keyBytes "1é" := by
      decide +kernel
    rw [hfirst, hsecond]
    exact nearMiss_append_cons (by decide) _ _
  exact ⟨hnear, near_misses_hash_apart.2.1 _ _ hnear⟩

end ShardStore
