import ShardStore.Proofs.RoutingRange

/-!
# Few shards see little of a key

`fnv32` multiplies and then xors, and neither carries anything from the high bits of its arguments
to the low bits of its result. So the low `k` bits of a hash come from the low `k` bits of the bytes
(`fnv32_mod_two_pow`), and these are all that a store of `2 ^ k` shards looks at when it takes the
remainder of the hash. Keys whose bytes agree there share a shard for good, however many shards
there are besides.

An upper case letter and its lower case letter differ in the sixth bit only. With the default number
of shards, `2 ^ 5`, keys that differ only in the case of letters are not told apart
(`lowBits_toLower`).
-/

namespace ShardStore

variable {σ S V α : Type} {mode : Threading} {n k : Nat} {xs ys : List UInt8}

/-! ## The hash modulo a power of two -/

/-- Takes in one byte modulo `2 ^ k`: multiply, then xor. -/
def Fnv.lowStep (k hash byte : Nat) : Nat :=
  hash * prime.toNat % 2 ^ k ^^^ byte

/-- The fold of `fnv32`, carried out modulo `2 ^ k` on bytes that are reduced already. -/
def fnvLow (k : Nat) (bytes : List Nat) : Nat :=
  bytes.foldl (Fnv.lowStep k) (Fnv.basis.toNat % 2 ^ k)

/-- The bytes modulo `2 ^ k`. -/
def lowBits (k : Nat) (bytes : List UInt8) : List Nat :=
  bytes.map fun byte => byte.toNat % 2 ^ k

/-- The low bits of a step come from the low bits of the hash and of the byte. -/
theorem Fnv.toNat_step_mod (h : k ≤ 32) (hash : UInt32) (byte : UInt8) :
    (step hash byte).toNat % 2 ^ k = lowStep k (hash.toNat % 2 ^ k) (byte.toNat % 2 ^ k) := by
  have hdvd : 2 ^ k ∣ 2 ^ 32 := Nat.pow_dvd_pow 2 h
  rw [step, lowStep, UInt32.toNat_xor, Nat.xor_mod_two_pow, UInt32.toNat_mul,
    Nat.mod_mod_of_dvd _ hdvd, Nat.mod_mul_mod, UInt8.toNat_toUInt32]

theorem Fnv.toNat_foldl_mod (h : k ≤ 32) (bytes : List UInt8) (hash : UInt32) :
    (bytes.foldl step hash).toNat % 2 ^ k =
      (lowBits k bytes).foldl (lowStep k) (hash.toNat % 2 ^ k) := by
  induction bytes generalizing hash with
  | nil => rfl
  | cons byte bytes ih =>
    rw [List.foldl_cons, ih, toNat_step_mod h]
    rfl

/-- **The hash may be reduced before it is computed.** -/
theorem fnv32_mod_two_pow (h : k ≤ 32) (bytes : List UInt8) :
    (fnv32 bytes).toNat % 2 ^ k = fnvLow k (lowBits k bytes) :=
  Fnv.toNat_foldl_mod h bytes Fnv.basis

/-! ## Agreement in low bits -/

/-- Strings of one length whose bytes agree, place by place, in their low `k` bits. -/
def AgreeLow (k : Nat) (xs ys : List UInt8) : Prop :=
  List.Forall₂ (fun x y => ∀ j < k, x.toNat.testBit j = y.toNat.testBit j) xs ys

/-- Numbers agree in their low bits if they have the same remainder. -/
theorem forall_testBit_eq_iff {a b : Nat} :
    (∀ j < k, a.testBit j = b.testBit j) ↔ a % 2 ^ k = b % 2 ^ k := by
  constructor
  · intro h
    refine Nat.eq_of_testBit_eq fun j => ?_
    rw [Nat.testBit_mod_two_pow, Nat.testBit_mod_two_pow]
    by_cases hj : j < k
    · rw [h j hj]
    · simp only [hj, decide_false, Bool.false_and]
  · intro h j hj
    have hbit := congrArg (Nat.testBit · j) h
    simpa only [Nat.testBit_mod_two_pow, hj, decide_true, Bool.true_and] using hbit

theorem agreeLow_iff : AgreeLow k xs ys ↔ lowBits k xs = lowBits k ys := by
  rw [AgreeLow, lowBits, lowBits, ← List.forall₂_eq_eq_eq, List.forall₂_map_left_iff,
    List.forall₂_map_right_iff]
  simp only [forall_testBit_eq_iff]

/-- Fewer bits agree if more do. -/
theorem AgreeLow.mono (h : AgreeLow k xs ys) {j : Nat} (hj : j ≤ k) : AgreeLow j xs ys :=
  h.imp fun _ _ hbits i hi => hbits i (hi.trans_le hj)

/-- Strings that agree in their low bits have hashes that do. -/
theorem AgreeLow.fnv32_mod_eq (h : AgreeLow k xs ys) :
    (fnv32 xs).toNat % 2 ^ k = (fnv32 ys).toNat % 2 ^ k := by
  rcases Nat.le_total k 32 with hle | hge
  · rw [fnv32_mod_two_pow hle, fnv32_mod_two_pow hle, agreeLow_iff.mp h]
  · -- A hash has no more than thirty-two bits.
    have hwhole := fnv32_mod_two_pow (Nat.le_refl 32) xs
    rw [agreeLow_iff.mp (h.mono hge), ← fnv32_mod_two_pow (Nat.le_refl 32),
      Nat.mod_eq_of_lt (UInt32.toNat_lt _), Nat.mod_eq_of_lt (UInt32.toNat_lt _)] at hwhole
    rw [hwhole]

/-! ## The case of letters -/

/-- A key is spelled character by character. -/
theorem keyBytes_eq_flatMap (key : String) :
    keyBytes key = key.toList.flatMap String.utf8EncodeChar := by
  rw [keyBytes, String.toUTF8, ← String.utf8Encode_toList, List.utf8Encode, List.data_toByteArray]

/-- An ASCII character is one byte. -/
theorem lowBits_utf8EncodeChar_of_lt {c : Char} (h : c.toNat < 128) :
    lowBits 5 (String.utf8EncodeChar c) = [c.toNat % 2 ^ 5] := by
  have hsmall : c.val.toNat ≤ 127 := Nat.le_of_lt_succ h
  rw [String.utf8EncodeChar, if_pos hsmall, lowBits, List.map_singleton, UInt8.toNat_ofNat',
    Nat.mod_mod_of_dvd _ (by decide), Char.toNat_val]

theorem lowBits_utf8EncodeChar_toLower (c : Char) :
    lowBits 5 (String.utf8EncodeChar c.toLower) = lowBits 5 (String.utf8EncodeChar c) := by
  by_cases hupper : c.val ≥ 'A'.val ∧ c.val ≤ 'Z'.val
  · -- Either letter is one byte, and the two bytes are thirty-two apart.
    have hsmall : c.toNat ≤ 90 := UInt32.le_iff_toNat_le.mp hupper.2
    have hlower : c.toLower.toNat = c.toNat + 2 ^ 5 := by
      rw [show c.toLower = _ from dif_pos hupper, Char.toNat_mk, UInt32.toNat_add, Char.toNat_val]
      exact Nat.mod_eq_of_lt (Nat.add_lt_add_right (Nat.lt_of_le_of_lt hsmall (by decide)) _)
    rw [lowBits_utf8EncodeChar_of_lt (by omega), lowBits_utf8EncodeChar_of_lt (by omega), hlower,
      Nat.add_mod_right]
  · rw [show c.toLower = c from dif_neg hupper]

/-- **Letters in upper and lower case look alike** in their low five bits. -/
theorem lowBits_toLower (key : String) :
    lowBits 5 (keyBytes key.toLower) = lowBits 5 (keyBytes key) := by
  have hchars : key.toLower.toList = key.toList.map Char.toLower := String.toList_map
  rw [keyBytes_eq_flatMap, keyBytes_eq_flatMap, hchars, lowBits, lowBits, List.flatMap_map,
    List.map_flatMap, List.map_flatMap]
  exact List.flatMap_congr fun c _ => lowBits_utf8EncodeChar_toLower c

theorem agreeLow_of_toLower_eq {key key' : String} (h : key.toLower = key'.toLower) :
    AgreeLow 5 (keyBytes key) (keyBytes key') := by
  rw [agreeLow_iff, ← lowBits_toLower key, h, lowBits_toLower]

/-! ## Stores of so many shards -/

namespace Store

variable {store : Store σ V n}

/-- Two keys have one shard, and no other shard holds either. -/
def SameShard (store : Store σ V n) (key key' : String) : Prop :=
  ∃ i : Fin n, store.shardIndex key = .returned i.val ∧ store.shardIndex key' = .returned i.val ∧
    ∀ j, key ∈ store.table j ∨ key' ∈ store.table j → j = i

/-- What a store of `2 ^ k` shards makes of keys. -/
structure SeesLowBits (store : Store σ V n) (k : Nat) : Prop where
  /-- The shard of a key is its hash, carried out modulo `2 ^ k` on the low bits of its bytes. -/
  index : k ≤ 32 → ∀ key,
    store.shardIndex key = .returned (fnvLow k (lowBits k (keyBytes key)))
  /-- So keys of one length whose bytes agree in their low bits have one shard. -/
  together : ∀ {key key' : String}, AgreeLow k (keyBytes key) (keyBytes key') →
    store.SameShard key key'
  /-- With the default number of shards, keys do that differ only in the case of ASCII letters. -/
  letterCase : n = defaultShardCount.toNat → ∀ {key key' : String},
    key.toLower = key'.toLower → store.SameShard key key'

/-- By default a caller is told the remainder of the hash. -/
theorem shardIndex_of_fnv32 (hhasher : store.hasher = .fnv32) (hrouting : store.routing = .modulo)
    (key : String) : store.shardIndex key = .returned ((fnv32 (keyBytes key)).toNat % n) := by
  have hroute := congrArg Prod.fst (route_of_modulo hrouting key)
  rw [shardIndex_eq_returned.mpr hroute, hhasher, Hasher.hashKey, UInt32.toNat_toUInt64]

/-- Keys whose hashes have the same remainder share a shard. -/
theorem FiledBy.sameShard {send : String → Except Fault (Fin n)} (h : store.FiledBy send)
    (hhasher : store.hasher = .fnv32) (hrouting : store.routing = .modulo) {key key' : String}
    (hmod : (fnv32 (keyBytes key)).toNat % n = (fnv32 (keyBytes key')).toNat % n) :
    store.SameShard key key' := by
  have hkey := shardIndex_of_fnv32 hhasher hrouting key
  have hkey' := shardIndex_of_fnv32 hhasher hrouting key'
  rw [← hmod] at hkey'
  refine ⟨⟨_, Nat.mod_lt _ store.pos⟩, hkey, hkey', ?_⟩
  rintro j (hmem | hmem)
  · exact Fin.ext (Outcome.returned.inj ((h.partitioned.placed hmem).symm.trans hkey))
  · exact Fin.ext (Outcome.returned.inj ((h.partitioned.placed hmem).symm.trans hkey'))

/-- **A store sees the low bits of keys**, whatever is in its tables. -/
theorem FiledBy.seesLowBits {send : String → Except Fault (Fin n)} (h : store.FiledBy send)
    (hhasher : store.hasher = .fnv32) (hrouting : store.routing = .modulo) (hshards : n = 2 ^ k) :
    store.SeesLowBits k := by
  have htogether {key key' : String} (hagree : AgreeLow k (keyBytes key) (keyBytes key')) :
      store.SameShard key key' :=
    h.sameShard hhasher hrouting (hshards ▸ hagree.fnv32_mod_eq)
  refine ⟨fun hle key => ?_, htogether, fun hdefault key key' hlower => htogether ?_⟩
  · rw [shardIndex_of_fnv32 hhasher hrouting, hshards, fnv32_mod_two_pow hle]
  · obtain rfl : k = 5 := Nat.pow_right_injective (Nat.le_refl 2) (hshards.symm.trans hdefault)
    exact agreeLow_of_toLower_eq hlower

end Store

/-! ## The statement -/

/-- **With `2 ^ k` shards the default routing sees the low `k` bits of each byte.** Let threads act
in turns on a new store of so many shards that hashes and routes by default. At every point, the
shard of a key is the hash that is carried out modulo `2 ^ k` on the bytes modulo `2 ^ k`, if `k` is
no more than thirty-two; and whatever `k` is, keys of one length whose bytes agree in their low `k`
bits have one shard, and are in no other. With the default number of shards, these are among others
the keys that differ only in the case of letters. -/
theorem Threads.shards_see_low_bits {config : Config σ} (hshards : config.shards = 2 ^ k)
    (hhasher : config.hasher = .fnv32) (hrouting : config.routing = .modulo)
    {start threads : Threads mode σ S V α config.shards}
    (hstore : Store.ofConfig config = .ok start.store)
    (hbegins : ∀ course ∈ start.courses, course.2.Begins) (h : start.Reaches threads) :
    threads.store.SeesLowBits k := by
  obtain ⟨hhasher', hrouting', -⟩ := Store.of_ofConfig hstore
  obtain ⟨hsamehasher, hsamerouter⟩ := h.setUpLike
  obtain ⟨log, hlogs⟩ := exists_logs_iff.mpr h
  have hbyhash : config.routing.ByHash := hrouting ▸ Routing.stateless_modulo.byHash
  have hfiled := hlogs.filed (filed_of_begins hstore hbyhash hbegins)
  have hmodulo : threads.store.routing = .modulo := by
    rw [hrouting', hrouting] at hsamerouter
    cases hcase : threads.store.routing with
    | modulo => rfl
    | custom router state =>
      rw [hcase] at hsamerouter
      cases hsamerouter
  exact hfiled.store.seesLowBits (hsamehasher.trans (hhasher'.trans hhasher)) hmodulo hshards

/-- The default number of shards, and three spellings of a key, one of which is removed again. -/
theorem Threads.shards_see_low_bits_in_any_case :
    let config : Config Unit := {}
    ∃ store : Store Unit Nat config.shards, Store.ofConfig config = .ok store ∧
      config.shards = 2 ^ 5 ∧ config.hasher = .fnv32 ∧ config.routing = .modulo ∧
      let start : Threads .single Unit Unit Nat Unit config.shards := .ofPrograms store
        [((), Program.setMany [("Naïve-Key", 1), ("nAïvE-kEY", 2)]),
          ((), (do Program.set "NAïVE-KEY" 3; Program.remove "Naïve-Key"))]
      let threads := start.follow (List.replicate 20 [0, 1]).flatten
      start.Reaches threads ∧ threads.Ended ∧
        (threads.store.table ⟨13, by decide⟩).toList = [("NAïVE-KEY", 3), ("nAïvE-kEY", 2)] ∧
        threads.store.SeesLowBits 5 := by
  intro config
  obtain ⟨store, hstore⟩ : ∃ store : Store Unit Nat config.shards,
      Store.ofConfig config = .ok store := ⟨_, rfl⟩
  refine ⟨store, hstore, rfl, rfl, rfl, ?_⟩
  intro start threads
  have hbegins : ∀ course ∈ start.courses, course.2.Begins := by
    intro course hcourse
    obtain ⟨program, -, rfl⟩ := List.mem_map.mp hcourse
    exact .program _
  have hreaches : start.Reaches threads := reaches_follow start _
  refine ⟨hreaches, ?_, ?_, shards_see_low_bits rfl rfl rfl hstore hbegins hreaches⟩
  · cases hstore
    change (start.follow _).Ended
    unfold Ended
    decide +kernel
  · cases hstore
    decide +kernel

end ShardStore
