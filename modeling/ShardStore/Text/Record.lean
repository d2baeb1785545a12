/-!
# Record texts

The text by which settings, counters and snapshots describe themselves: a name followed by named
fields, on one line or broken over indented lines. `RecordText` is what is described, and
`RecordText.render` writes it in either style.
-/

namespace ShardStore

/-- A description made of names and nested parts. -/
inductive RecordText where
  /-- A text that stands for itself. -/
  | atom (text : String)
  /-- A name around one part, as in `Some(64)`. -/
  | wrapped (name : String) (part : RecordText)
  /-- A name with named fields. -/
  | fields (name : String) (parts : List (String × RecordText))
  /-- A table without a name; the keys are already quoted. -/
  | table (entries : List (String × RecordText))
deriving Inhabited

namespace RecordText

/-- Whether a description stays on one line or has a line for each part. -/
inductive Style where
  | oneLine
  | indented
deriving DecidableEq, Repr

/-- Four blanks for each level. -/
def indent (depth : Nat) : String :=
  String.ofList (List.replicate (4 * depth) ' ')

/-- Brackets around parts. On one line the parts are divided by commas and set off from the
brackets by `gap`; over several lines each part has a line and a comma of its own. -/
def enclose (style : Style) (depth : Nat) (opening closing gap : String) :
    List String → String
  | [] => opening ++ closing
  | parts =>
    match style with
    | .oneLine => opening ++ gap ++ ", ".intercalate parts ++ gap ++ closing
    | .indented =>
      opening ++ "\n" ++ String.join (parts.map fun part => indent (depth + 1) ++ part ++ ",\n") ++
        indent depth ++ closing

mutual

/-- The text of a description that starts at indentation level `depth`. -/
def renderAt (style : Style) (depth : Nat) : RecordText → String
  | .atom text => text
  | .wrapped name part =>
    enclose style depth (name ++ "(") ")" "" [renderAt style (depth + 1) part]
  | .fields name parts =>
    enclose style depth (name ++ " \x7b") "\x7d" " " (renderParts style (depth + 1) parts)
  | .table entries =>
    enclose style depth "\x7b" "\x7d" "" (renderParts style (depth + 1) entries)

/-- Each named part as `name: text`. -/
def renderParts (style : Style) (depth : Nat) : List (String × RecordText) → List String
  | [] => []
  | (name, part) :: rest =>
    (name ++ ": " ++ renderAt style depth part) :: renderParts style depth rest

end

/-- The text of a description. -/
def render (style : Style) (text : RecordText) : String :=
  renderAt style 0 text

/-- A number as a part. -/
def ofNat (n : Nat) : RecordText :=
  .atom (toString n)

/-- An optional part: `None`, or the part wrapped in `Some`. -/
def ofOption : Option RecordText → RecordText
  | none => .atom "None"
  | some part => .wrapped "Some" part

end RecordText

end ShardStore
