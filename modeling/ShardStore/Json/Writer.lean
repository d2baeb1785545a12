import ShardStore.Json.Basic

/-!
# Writing JSON

Two layouts: compact, without any blank, and indented, with a line for each item or member and two
blanks for each level. In both, a text is quoted with the short escapes where JSON has them,
`\u00xx` for the other characters below the blank, and every other character as it is.
-/

namespace ShardStore.Json

/-- How a value is laid out. -/
inductive Layout where
  | compact
  | indented
deriving DecidableEq, Repr

/-- The letter after the backslash, for characters that have a short escape. -/
def shortEscape? : Char → Option Char
  | '"' => some '"'
  | '\\' => some '\\'
  | '\x08' => some 'b'
  | '\x0c' => some 'f'
  | '\n' => some 'n'
  | '\r' => some 'r'
  | '\t' => some 't'
  | _ => none

/-- One character of a quoted text. -/
def escape (c : Char) : List Char :=
  match shortEscape? c with
  | some letter => ['\\', letter]
  | none =>
    if c.toNat < 32 then
      ['\\', 'u', '0', '0', Nat.digitChar (c.toNat / 16), Nat.digitChar (c.toNat % 16)]
    else [c]

/-- A text in quotes. -/
def quoted (text : List Char) : List Char :=
  '"' :: text.flatMap escape ++ ['"']

/-- The digits of an integer. -/
def digits : Int → List Char
  | .ofNat n => Nat.toDigits 10 n
  | .negSucc n => '-' :: Nat.toDigits 10 (n + 1)

/-- What stands between parts at a level: nothing, or a new line and its indentation. -/
def lineBreak (depth : Nat) : Layout → List Char
  | .compact => []
  | .indented => '\n' :: List.replicate (2 * depth) ' '

/-- What divides a key from its value. -/
def colon : Layout → List Char
  | .compact => [':']
  | .indented => [':', ' ']

/-- Brackets around parts that are divided by commas. -/
def enclose (layout : Layout) (depth : Nat) (opening closing : Char) :
    List (List Char) → List Char
  | [] => [opening, closing]
  | part :: rest =>
    opening :: lineBreak (depth + 1) layout ++ part ++
      (rest.flatMap fun part => ',' :: lineBreak (depth + 1) layout ++ part) ++
      lineBreak depth layout ++ [closing]

mutual

/-- A value that starts at a level of indentation. -/
def render (layout : Layout) (depth : Nat) : Json → List Char
  | .null => ['n', 'u', 'l', 'l']
  | .bool true => ['t', 'r', 'u', 'e']
  | .bool false => ['f', 'a', 'l', 's', 'e']
  | .int i => digits i
  | .str s => quoted s.toList
  | .arr items => enclose layout depth '[' ']' (renderItems layout (depth + 1) items)
  | .obj members => enclose layout depth '\x7b' '\x7d' (renderMembers layout (depth + 1) members)

/-- Each item. -/
def renderItems (layout : Layout) (depth : Nat) : List Json → List (List Char)
  | [] => []
  | item :: rest => render layout depth item :: renderItems layout depth rest

/-- Each member: its key, a colon, its value. -/
def renderMembers (layout : Layout) (depth : Nat) : List (String × Json) → List (List Char)
  | [] => []
  | (key, value) :: rest =>
    (quoted key.toList ++ colon layout ++ render layout depth value) ::
      renderMembers layout depth rest

end

/-- The text of a value. -/
def text (layout : Layout) (value : Json) : String :=
  String.ofList (render layout 0 value)

end ShardStore.Json
