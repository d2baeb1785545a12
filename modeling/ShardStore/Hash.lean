/-!
# Hashing of keys

A key is hashed over its UTF-8 bytes. `fnv32` multiplies and then xors, byte by byte, in 32 bits.
`fx` cuts the bytes into little-endian words of eight, four and one byte, closes them with the
byte `0xff`, and folds the words into 64 bits by rotate, xor and multiply. Both are pure functions
of the bytes. The third choice of `Hasher` is any fixed function of the key, for digests whose
values are not part of the contract.
-/

namespace ShardStore

/-- The UTF-8 bytes of a key. -/
def keyBytes (key : String) : List UInt8 :=
  key.toUTF8.data.toList

namespace Fnv

/-- The hash of no bytes. -/
def basis : UInt32 := 2166136261

/-- The multiplier, an odd number. -/
def prime : UInt32 := 16777619

/-- Takes in one byte: multiply, then xor. -/
def step (hash : UInt32) (byte : UInt8) : UInt32 :=
  hash * prime ^^^ byte.toUInt32

end Fnv

/-- The 32-bit hash that multiplies before it xors. -/
def fnv32 (bytes : List UInt8) : UInt32 :=
  bytes.foldl Fnv.step Fnv.basis

theorem fnv32_append (front back : List UInt8) :
    fnv32 (front ++ back) = back.foldl Fnv.step (fnv32 front) :=
  List.foldl_append

namespace Fnv

/-- Takes in copies of a byte string, one after another, without ever holding them all. A copy that
leaves the hash as it is ends the work, since so would every later one. -/
def absorbCopies (bytes : List UInt8) : Nat → UInt32 → UInt32
  | 0, hash => hash
  | times + 1, hash =>
    let absorbed := bytes.foldl step hash
    if absorbed = hash then hash else absorbCopies bytes times absorbed

/-- Bytes that leave a hash as it is leave it as it is however often they come. -/
theorem foldl_flatten_replicate_of_fixed {bytes : List UInt8} {hash : UInt32}
    (h : bytes.foldl step hash = hash) (times : Nat) :
    (List.replicate times bytes).flatten.foldl step hash = hash := by
  induction times with
  | zero => rfl
  | succ times ih => rw [List.replicate_succ, List.flatten_cons, List.foldl_append, h, ih]

theorem absorbCopies_eq (bytes : List UInt8) (times : Nat) (hash : UInt32) :
    absorbCopies bytes times hash = (List.replicate times bytes).flatten.foldl step hash := by
  induction times generalizing hash with
  | zero => rfl
  | succ times ih =>
    rw [absorbCopies]
    split
    · next h => exact (foldl_flatten_replicate_of_fixed h (times + 1)).symm
    · rw [ih, List.replicate_succ, List.flatten_cons, List.foldl_append]

end Fnv

/-- The hash of copies of a byte string, one after another. -/
def fnv32Copies (bytes : List UInt8) (times : Nat) : UInt32 :=
  Fnv.absorbCopies bytes times Fnv.basis

/-- Copies hash as the one long string that they make. -/
theorem fnv32Copies_eq (bytes : List UInt8) (times : Nat) :
    fnv32Copies bytes times = fnv32 (List.replicate times bytes).flatten :=
  Fnv.absorbCopies_eq bytes times Fnv.basis

namespace Fx

/-- The multiplier, an odd number. -/
def multiplier : UInt64 := 0x517cc1b727220a95

/-- Bits by which the state is rotated before a word is taken in. -/
def turn : UInt64 := 5

/-- A word turned to the left, with the high bits coming back in at the low end. -/
def rotateLeft (word amount : UInt64) : UInt64 :=
  word <<< amount ||| word >>> (64 - amount)

/-- Takes in one word: rotate, xor, multiply. -/
def step (hash word : UInt64) : UInt64 :=
  (rotateLeft hash turn ^^^ word) * multiplier

/-- The number whose base-256 digits, least first, are the bytes. -/
def littleEndian : List UInt8 → UInt64
  | [] => 0
  | byte :: rest => byte.toUInt64 ||| littleEndian rest <<< 8

/-- The words of a byte string: eight bytes at a time, then four if there are four, then single
bytes. -/
def words : List UInt8 → List UInt64
  | b₀ :: b₁ :: b₂ :: b₃ :: b₄ :: b₅ :: b₆ :: b₇ :: rest =>
    littleEndian [b₀, b₁, b₂, b₃, b₄, b₅, b₆, b₇] :: words rest
  | b₀ :: b₁ :: b₂ :: b₃ :: rest => littleEndian [b₀, b₁, b₂, b₃] :: rest.map UInt8.toUInt64
  | rest => rest.map UInt8.toUInt64

end Fx

/-- The 64-bit word hash of a text, closed with `0xff` so that no text is the start of another. -/
def fx (bytes : List UInt8) : UInt64 :=
  (Fx.words bytes ++ [0xff]).foldl Fx.step 0

/-- How keys are hashed for placement. -/
inductive Hasher where
  /-- `fnv32`, widened. -/
  | fnv32
  /-- A digest that is fixed while the program runs and otherwise unspecified. -/
  | ahash (digest : String → UInt64)
  /-- `fx`. -/
  | fx

namespace Hasher

/-- The hash of a key. -/
def hashKey : Hasher → String → UInt64
  | .fnv32, key => (ShardStore.fnv32 (keyBytes key)).toUInt64
  | .ahash digest, key => digest key
  | .fx, key => ShardStore.fx (keyBytes key)

/-- The name by which a hasher is shown. -/
def name : Hasher → String
  | .fnv32 => "Fnv32"
  | .ahash _ => "AHash"
  | .fx => "FxHash"

instance : Inhabited Hasher := ⟨.fnv32⟩

end Hasher

end ShardStore
