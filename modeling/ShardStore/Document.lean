import ShardStore.Encoding
import ShardStore.Error
import ShardStore.Json.Writer
import ShardStore.Program

/-!
# Encoding a store

A store is encoded as one flat JSON object, from a snapshot: the shard of a key does not show.
How a value describes itself is up to `encode`. The first refusal in the order of the snapshot ends
the encoding and is reported. The texts have a member for each stored entry; the value form has a
member for each key, with the value of the last shard that holds it.

The texts are made by the store, which reports a refusal as an error of its own. The value form is
made by whoever asks for it from the same entries, and a refusal is then told as it is.
-/

namespace ShardStore

/-- The members of the object in a form, in the order of the entries; or the first refusal. -/
def encodeMembers {V : Type} (form : Form) (encode : V → Encoding) (entries : List (String × V)) :
    Except Refusal (List (String × Json)) :=
  entries.mapM fun entry =>
    match (encode entry.2).write form with
    | .ok value => .ok (entry.1, value)
    | .error message => .error (.ofText message)

namespace Program

variable {S V : Type} {mode : Threading}

/-- Writes every entry of a snapshot in a form. -/
def writtenMembers (form : Form) (encode : V → Encoding) :
    Program mode S V (Except Refusal (List (String × Json))) := do
  let captured ← snapshot
  return encodeMembers form encode captured.entries.toList

/-- The members of the store's text. -/
def members (encode : V → Encoding) :
    Program mode S V (Except Error (List (String × Json))) := do
  let written ← writtenMembers .text encode
  return written

/-- The store as a JSON text. -/
def toJson (layout : Json.Layout) (encode : V → Encoding) :
    Program mode S V (Except Error String) := do
  let encoded ← members encode
  return encoded.map fun members => (Form.text.object members).text layout

/-- The store as a JSON value. -/
def toValue (encode : V → Encoding) : Program mode S V (Except Refusal Json) := do
  let written ← writtenMembers .value encode
  return written.map Form.value.object

end Program

end ShardStore
