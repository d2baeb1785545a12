import ShardStore.Json.Basic

/-!
# Reading JSON

A text is cut into tokens, and the tokens build a value. Both passes go once over their input and
keep what is still open in a state: the characters of an unfinished word or quoted text in the
first, the arrays and objects that were not closed yet in the second. Members are kept in the
order of the text, and a key that occurs twice is kept twice. Numbers with a fraction or an
exponent are refused.
-/

namespace ShardStore.Json

/-- The pieces of a JSON text. -/
inductive Token where
  | braceOpen
  | braceClose
  | bracketOpen
  | bracketClose
  | colon
  | comma
  /-- A quoted text, with its escapes resolved. -/
  | text (s : String)
  /-- A number or one of the three names. -/
  | scalar (value : Json)
deriving Inhabited

/-- The characters that may stand between tokens. -/
def isBlank (c : Char) : Bool :=
  c = ' ' || c = '\n' || c = '\r' || c = '\t'

/-- The tokens that are one character. -/
def mark? : Char → Option Token
  | '\x7b' => some .braceOpen
  | '\x7d' => some .braceClose
  | '[' => some .bracketOpen
  | ']' => some .bracketClose
  | ':' => some .colon
  | ',' => some .comma
  | _ => none

/-- The characters of numbers and names. -/
def isWordChar (c : Char) : Bool :=
  c.isAlphanum || c = '-'

/-- A natural number in decimal, without needless zeros in front. -/
def natural? : List Char → Option Nat
  | [] => none
  | ['0'] => some 0
  | '0' :: _ => none
  | ds => if ds.all Char.isDigit then some (Nat.ofDigitChars 10 ds 0) else none

/-- What a word stands for. -/
def word? : List Char → Option Json
  | ['n', 'u', 'l', 'l'] => some .null
  | ['t', 'r', 'u', 'e'] => some (.bool true)
  | ['f', 'a', 'l', 's', 'e'] => some (.bool false)
  | '-' :: ds => (natural? ds).map fun n => .int (-n)
  | ds => (natural? ds).map fun n => .int n

/-- The character that a letter after a backslash stands for. -/
def unescape? : Char → Option Char
  | '"' => some '"'
  | '\\' => some '\\'
  | '/' => some '/'
  | 'b' => some '\x08'
  | 'f' => some '\x0c'
  | 'n' => some '\n'
  | 'r' => some '\r'
  | 't' => some '\t'
  | _ => none

/-- The value of a hexadecimal digit. -/
def hexDigit? (c : Char) : Option Nat :=
  if c.isDigit then some (c.toNat - '0'.toNat)
  else if 'a' ≤ c ∧ c ≤ 'f' then some (c.toNat - 'a'.toNat + 10)
  else if 'A' ≤ c ∧ c ≤ 'F' then some (c.toNat - 'A'.toNat + 10)
  else none

/-- The 16-bit unit written by four hexadecimal digits. -/
def unit? (a b c d : Char) : Option Nat := do
  let a ← hexDigit? a
  let b ← hexDigit? b
  let c ← hexDigit? c
  let d ← hexDigit? d
  return ((a * 16 + b) * 16 + c) * 16 + d

/-- Units that are the first half of a character. -/
def isHighHalf (unit : Nat) : Bool :=
  0xd800 ≤ unit && unit < 0xdc00

/-- Units that are the second half of a character. -/
def isLowHalf (unit : Nat) : Bool :=
  0xdc00 ≤ unit && unit < 0xe000

/-- The character of two halves. -/
def joinHalves (high low : Nat) : Char :=
  Char.ofNat (0x10000 + (high - 0xd800) * 0x400 + (low - 0xdc00))

/-- What the scanner is in the middle of; characters read so far are in reverse. -/
inductive Scan where
  /-- Between tokens. -/
  | between
  /-- In a number or name. -/
  | word (read : List Char)
  /-- In a quoted text. -/
  | text (read : List Char)
  /-- In a quoted text, after the first half of a character. -/
  | half (read : List Char) (high : Nat)

/-- The tokens of a text, from a state of the scanner on. -/
def scan : Scan → List Char → Option (List Token)
  | .between, [] => some []
  | .between, c :: rest =>
    if isBlank c then scan .between rest
    else if c = '"' then scan (.text []) rest
    else if isWordChar c then scan (.word [c]) rest
    else
      match mark? c with
      | some token => (scan .between rest).map (token :: ·)
      | none => none
  | .word read, [] => (word? read.reverse).map fun value => [.scalar value]
  | .word read, c :: rest =>
    if isWordChar c then scan (.word (c :: read)) rest
    else
      match word? read.reverse with
      | none => none
      | some value =>
        if isBlank c then (scan .between rest).map (.scalar value :: ·)
        else
          match mark? c with
          | some token => (scan .between rest).map fun tokens => .scalar value :: token :: tokens
          | none => none
  | .text read, '"' :: rest =>
    (scan .between rest).map (.text (String.ofList read.reverse) :: ·)
  | .text read, '\\' :: 'u' :: a :: b :: c :: d :: rest =>
    match unit? a b c d with
    | none => none
    | some unit =>
      if isHighHalf unit then scan (.half read unit) rest
      else if isLowHalf unit then none
      else scan (.text (Char.ofNat unit :: read)) rest
  | .text read, '\\' :: letter :: rest =>
    match unescape? letter with
    | some c => scan (.text (c :: read)) rest
    | none => none
  | .text read, c :: rest =>
    if c.toNat < 32 ∨ c = '\\' then none else scan (.text (c :: read)) rest
  | .half read high, '\\' :: 'u' :: a :: b :: c :: d :: rest =>
    match unit? a b c d with
    | none => none
    | some unit =>
      if isLowHalf unit then scan (.text (joinHalves high unit :: read)) rest else none
  | .text _, [] => none
  | .half _ _, _ => none

/-- An array or object that is not closed yet; what it holds so far is in reverse. -/
inductive Frame where
  | array (read : List Json)
  /-- The value of `key` is being read. -/
  | object (read : List (String × Json)) (key : String)

/-- What the builder waits for, inside the open arrays and objects of `stack`. -/
inductive Build where
  /-- A value. -/
  | value (stack : List Frame)
  /-- The first item of an array, or its end. -/
  | firstItem (stack : List Frame)
  /-- The first key of an object, or its end. -/
  | firstKey (stack : List Frame)
  /-- A further key of an object. -/
  | key (stack : List Frame) (read : List (String × Json))
  /-- The colon after a key. -/
  | colon (stack : List Frame) (read : List (String × Json)) (key : String)
  /-- What comes after a complete value. -/
  | after (stack : List Frame) (value : Json)

/-- The state after the token that starts a value. -/
def Build.start (stack : List Frame) : Token → Option Build
  | .text s => some (.after stack (.str s))
  | .scalar v => some (.after stack v)
  | .bracketOpen => some (.firstItem stack)
  | .braceOpen => some (.firstKey stack)
  | _ => none

/-- The state after one more token. -/
def Build.next : Build → Token → Option Build
  | .value stack, token => start stack token
  | .firstItem stack, .bracketClose => some (.after stack (.arr []))
  | .firstItem stack, token => start (.array [] :: stack) token
  | .firstKey stack, .braceClose => some (.after stack (.obj []))
  | .firstKey stack, .text k => some (.colon stack [] k)
  | .key stack read, .text k => some (.colon stack read k)
  | .colon stack read k, .colon => some (.value (.object read k :: stack))
  | .after (.array read :: stack) v, .comma => some (.value (.array (v :: read) :: stack))
  | .after (.array read :: stack) v, .bracketClose => some (.after stack (.arr (v :: read).reverse))
  | .after (.object read k :: stack) v, .comma => some (.key stack ((k, v) :: read))
  | .after (.object read k :: stack) v, .braceClose =>
    some (.after stack (.obj ((k, v) :: read).reverse))
  | _, _ => none

/-- The value that is complete when the tokens end. -/
def Build.finish : Build → Option Json
  | .after [] v => some v
  | _ => none

/-- The value that tokens build. -/
def ofTokens? (tokens : List Token) : Option Json := do
  let state ← tokens.foldlM Build.next (.value [])
  state.finish

/-- Reads a text as one JSON value. -/
def parse? (text : String) : Option Json := do
  ofTokens? (← scan .between text.toList)

end ShardStore.Json
