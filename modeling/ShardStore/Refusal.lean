/-!
# Refusals

Why a value could not be encoded. Values refuse with a plain text. If the text ends in a position,
as in ` at line 3 column 7`, the position is taken off and kept as numbers, and is written after the
message again when the refusal is shown. Lines are counted from one: a position in line zero is no
place in any text, so it is taken off and nothing is shown for it.

## Shape of a position

What matters is the last ` at line ` of the text. It must be followed by the digits of a line, by
` column ` and by the digits of a column, and then the text must be over. Zeros may stand in front
of a number, and a number must fit in a word of 64 bits. A text with anything else there has no
position and stays as it is.
-/

namespace ShardStore

/-- A place in a text. -/
structure Position where
  line : Nat
  column : Nat
deriving DecidableEq, Repr

namespace Position

/-- What stands before a line. -/
def lineMark : List Char := [' ', 'a', 't', ' ', 'l', 'i', 'n', 'e', ' ']

/-- What stands between a line and a column. -/
def columnMark : List Char := [' ', 'c', 'o', 'l', 'u', 'm', 'n', ' ']

/-- A position as the end of a text. -/
def text (position : Position) : List Char :=
  lineMark ++ Nat.toDigits 10 position.line ++ columnMark ++ Nat.toDigits 10 position.column

/-- A number in decimal that fits in a word; zeros may stand in front. -/
def number? (digits : List Char) : Option Nat :=
  let n := Nat.ofDigitChars 10 digits 0
  if digits ≠ [] ∧ digits.all Char.isDigit ∧ n < UInt64.size then some n else none

/-- The position that a text spells out after the mark of the line. -/
def ofDigits? (text : List Char) : Option Position := do
  let column ← columnMark.isPrefixOf? (text.dropWhile Char.isDigit)
  return { line := ← number? (text.takeWhile Char.isDigit), column := ← number? column }

/-- What stands before and after the last occurrence of a mark in a text. -/
def splitLast? (mark : List Char) : List Char → Option (List Char × List Char)
  | [] => none
  | c :: rest =>
    match splitLast? mark rest with
    | some (before, after) => some (c :: before, after)
    | none => (mark.isPrefixOf? (c :: rest)).map fun after => ([], after)

/-- What a mark is taken off is the mark and the rest. -/
theorem append_eq_of_isPrefixOf? {mark text rest : List Char}
    (h : mark.isPrefixOf? text = some rest) : mark ++ rest = text := by
  induction mark generalizing text with
  | nil => cases h; rfl
  | cons m mark ih =>
    cases text with
    | nil => cases h
    | cons c text =>
      change (if m == c then mark.isPrefixOf? text else none) = some rest at h
      split at h
      · next heq =>
        rw [eq_of_beq heq, List.cons_append, ih h]
      · cases h

/-- A split loses nothing. -/
theorem eq_of_splitLast?_eq_some {mark text before after : List Char}
    (h : splitLast? mark text = some (before, after)) : text = before ++ mark ++ after := by
  induction text generalizing before with
  | nil => cases h
  | cons c rest ih =>
    simp only [splitLast?] at h
    split at h
    · next heq =>
      cases h
      rw [ih heq]
      rfl
    · simp only [Option.map_eq_some_iff, Prod.mk.injEq] at h
      obtain ⟨_, hrest, rfl, rfl⟩ := h
      exact (append_eq_of_isPrefixOf? hrest).symm

end Position

/-- Why a value could not be encoded. -/
structure Refusal where
  message : String
  /-- The place that the message is about, if it names one. -/
  position : Option Position := none
deriving DecidableEq, Repr

namespace Refusal

/-- The refusal that a text stands for. -/
def ofText (text : String) : Refusal :=
  match Position.splitLast? Position.lineMark text.toList with
  | none => { message := text }
  | some (message, rest) =>
    match Position.ofDigits? rest with
    | none => { message := text }
    | some position =>
      { message := String.ofList message
        position := if position.line = 0 then none else some position }

/-- The text shown for a refusal. -/
def display (refusal : Refusal) : String :=
  match refusal.position with
  | none => refusal.message
  | some position => refusal.message ++ String.ofList position.text

end Refusal

end ShardStore
