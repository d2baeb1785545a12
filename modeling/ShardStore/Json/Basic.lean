import ShardStore.Table

/-!
# JSON values

The values that stores are encoded to: JSON without fractions. An object is a list of members, so
that an encoded store may hold a member twice and in any order; `Json.canonical` puts the members
of every object in the order of their keys, with the last of equal keys.
-/

namespace ShardStore

/-- A JSON value. -/
inductive Json where
  | null
  | bool (b : Bool)
  | int (i : Int)
  | str (s : String)
  | arr (items : List Json)
  | obj (members : List (String × Json))
deriving Inhabited

namespace Json

mutual

/-- The value with the members of every object sorted by key. -/
def canonical : Json → Json
  | .arr items => .arr (canonicalItems items)
  | .obj members => .obj (Table.ofEntries (canonicalMembers members)).toList
  | value => value

/-- Each item in canonical form. -/
def canonicalItems : List Json → List Json
  | [] => []
  | item :: rest => item.canonical :: canonicalItems rest

/-- Each member's value in canonical form. -/
def canonicalMembers : List (String × Json) → List (String × Json)
  | [] => []
  | (key, value) :: rest => (key, value.canonical) :: canonicalMembers rest

end

/-- The value of the first member with a key. -/
def find? (key : String) : List (String × Json) → Option Json
  | [] => none
  | (k, value) :: rest => if k = key then some value else find? key rest

end Json

end ShardStore
