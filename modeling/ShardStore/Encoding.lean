import ShardStore.Json.Basic

/-!
# Encodings

What a value makes of itself when it is encoded, and what becomes of that. A value describes itself
part by part, with integers of any size, and may refuse at any part with a text of its own. The
description is written in one of two forms, part by part in the same order, and the first refusal
ends it.

The forms differ in what they can hold. A text holds every integer, and the members of its objects
as they come. A JSON value holds integers of 64 bits only, with or without a sign, and refuses any
other one; its objects have one member for each key, in the order of the keys, with the last of
several.
-/

namespace ShardStore

/-- What values are encoded to. -/
inductive Form where
  | text
  | value
deriving DecidableEq, Repr

namespace Form

/-- Whether an integer can be written. -/
def holds : Form → Int → Bool
  | .text, _ => true
  | .value, i => decide (Int64.minValue.toInt ≤ i) && decide (i < UInt64.size)

/-- The object with some members. -/
def object : Form → List (String × Json) → Json
  | .text, members => .obj members
  | .value, members => .obj (Table.ofEntries members).toList

end Form

/-- How a value describes itself. -/
inductive Encoding where
  | null
  | bool (b : Bool)
  | int (i : Int)
  | str (s : String)
  | arr (items : List Encoding)
  | obj (members : List (String × Encoding))
  /-- The value refuses here. -/
  | refusal (message : String)
deriving Inhabited

namespace Encoding

/-- The text of the refusal of an integer that cannot be written. -/
def outOfRange : String := "number out of range"

mutual

/-- Writes a description, or tells the first refusal. -/
def write (form : Form) : Encoding → Except String Json
  | .null => .ok .null
  | .bool b => .ok (.bool b)
  | .int i => if form.holds i then .ok (.int i) else .error outOfRange
  | .str s => .ok (.str s)
  | .arr items => (writeItems form items).map .arr
  | .obj members => (writeMembers form members).map form.object
  | .refusal message => .error message

/-- Writes items in order. -/
def writeItems (form : Form) : List Encoding → Except String (List Json)
  | [] => .ok []
  | item :: rest =>
    match item.write form with
    | .ok value => (writeItems form rest).map fun values => value :: values
    | .error message => .error message

/-- Writes members in order. -/
def writeMembers (form : Form) : List (String × Encoding) → Except String (List (String × Json))
  | [] => .ok []
  | (key, member) :: rest =>
    match member.write form with
    | .ok value => (writeMembers form rest).map fun values => (key, value) :: values
    | .error message => .error message

end

mutual

/-- Whether a JSON value holds every integer of a description. -/
def fits : Encoding → Bool
  | .int i => Form.value.holds i
  | .arr items => itemsFit items
  | .obj members => membersFit members
  | _ => true

/-- Whether it holds those of each item. -/
def itemsFit : List Encoding → Bool
  | [] => true
  | item :: rest => item.fits && itemsFit rest

/-- Whether it holds those of each member. -/
def membersFit : List (String × Encoding) → Bool
  | [] => true
  | (_, member) :: rest => member.fits && membersFit rest

end

end Encoding

mutual

/-- A JSON value describes itself as what it is. -/
def Json.encoding : Json → Encoding
  | .null => .null
  | .bool b => .bool b
  | .int i => .int i
  | .str s => .str s
  | .arr items => .arr (itemEncodings items)
  | .obj members => .obj (memberEncodings members)

/-- The descriptions of items. -/
def Json.itemEncodings : List Json → List Encoding
  | [] => []
  | item :: rest => item.encoding :: itemEncodings rest

/-- The descriptions of members. -/
def Json.memberEncodings : List (String × Json) → List (String × Encoding)
  | [] => []
  | (key, value) :: rest => (key, value.encoding) :: memberEncodings rest

end

end ShardStore
