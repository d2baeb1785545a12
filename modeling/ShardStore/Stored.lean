import ShardStore.Encoding

/-!
# Stored documents

Values for stores that hold JSON: a plain JSON value, or one that refuses to be encoded and says
why. Written as data, a refusing value is the object with the single member `$fail`.
-/

namespace ShardStore

/-- A JSON value, or a value that refuses to be encoded. -/
inductive Stored where
  | plain (value : Json)
  | refusing (message : String)
deriving Inhabited

namespace Stored

/-- The key that marks a refusing value written as data. -/
def refusalKey : String := "$fail"

/-- Describes a value to an encoder, or refuses with its message. -/
def encode : Stored → Encoding
  | .plain value => value.encoding
  | .refusing message => .refusal message

/-- A value written as data. -/
def data : Stored → Json
  | .plain value => value
  | .refusing message => .obj [(refusalKey, .str message)]

/-- The value that data stands for. -/
def ofData : Json → Stored
  | .obj [(key, .str message)] =>
    if key = refusalKey then .refusing message else .plain (.obj [(key, .str message)])
  | value => .plain value

theorem ofData_data_refusing (message : String) :
    ofData (refusing message).data = .refusing message := by
  simp [data, ofData]

/-- Reading data and writing it again changes nothing. -/
theorem data_ofData (value : Json) : (ofData value).data = value := by
  unfold ofData
  split
  · split
    · next h => rw [h]; rfl
    · rfl
  · rfl

end Stored

end ShardStore
