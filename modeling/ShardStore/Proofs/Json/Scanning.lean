import Mathlib.Data.List.Forall2
import ShardStore.Json.Reader
import ShardStore.Json.Writer

/-!
# Written values are cut into their tokens

The text of a value, in either layout, is cut into the tokens of the value (`reads_render`): blanks
between tokens leave no trace, quoted texts come back with their escapes resolved, and numbers and
names come back as what they stand for. The scanner knows where a number or name ends only from what
comes behind it, so a text is read on its own only before something that ends a word (`Stops`).
-/

namespace ShardStore.Json

/-! ## The tokens of a value -/

/-- Brackets around parts that are divided by commas, as tokens. -/
def encloseTokens (opening closing : Token) : List (List Token) → List Token
  | [] => [opening, closing]
  | part :: rest => opening :: part ++ rest.flatMap (.comma :: ·) ++ [closing]

mutual

/-- The tokens of a value. -/
def tokens : Json → List Token
  | .null => [.scalar .null]
  | .bool b => [.scalar (.bool b)]
  | .int i => [.scalar (.int i)]
  | .str s => [.text s]
  | .arr items => encloseTokens .bracketOpen .bracketClose (itemTokens items)
  | .obj members => encloseTokens .braceOpen .braceClose (memberTokens members)

/-- The tokens of each item. -/
def itemTokens : List Json → List (List Token)
  | [] => []
  | item :: rest => item.tokens :: itemTokens rest

/-- The tokens of each member. -/
def memberTokens : List (String × Json) → List (List Token)
  | [] => []
  | (key, value) :: rest => (.text key :: .colon :: value.tokens) :: memberTokens rest

end

/-! ## Reading on from a place between tokens -/

/-- What comes next ends a word. -/
def Stops (rest : List Char) : Prop :=
  ∀ c, rest.head? = some c → isWordChar c = false ∧ c ≠ '"'

/-- A text is cut into some tokens wherever what comes next ends a word. -/
def Reads (text : List Char) (tokens : List Token) : Prop :=
  ∀ rest tail, Stops rest → scan .between rest = some tail →
    scan .between (text ++ rest) = some (tokens ++ tail)

theorem stops_nil : Stops [] := fun _ h => by cases h

theorem stops_of_mark {c : Char} {token : Token} (h : mark? c = some token) (rest : List Char) :
    Stops (c :: rest) := by
  rintro d ⟨⟩
  unfold mark? at h
  split at h <;> first | exact ⟨by decide, by decide⟩ | cases h

theorem stops_of_blank {c : Char} (h : isBlank c = true) (rest : List Char) :
    Stops (c :: rest) := by
  rintro d ⟨⟩
  simp only [isBlank, Bool.or_eq_true, decide_eq_true_eq] at h
  rcases h with ((rfl | rfl) | rfl) | rfl <;> exact ⟨by decide, by decide⟩

/-- What the scanner does with a character between tokens. -/
theorem scan_between_cons (c : Char) (rest : List Char) : scan .between (c :: rest) =
    if isBlank c then scan .between rest
    else if c = '"' then scan (.text []) rest
    else if isWordChar c then scan (.word [c]) rest
    else
      match mark? c with
      | some token => (scan .between rest).map (token :: ·)
      | none => none := rfl

theorem scan_mark {c : Char} {token : Token} (h : mark? c = some token) (rest : List Char) :
    scan .between (c :: rest) = (scan .between rest).map (token :: ·) := by
  unfold mark? at h
  split at h <;> first | (cases h; rfl) | cases h

theorem scan_blanks {blanks : List Char} (h : ∀ c ∈ blanks, isBlank c = true) (rest : List Char) :
    scan .between (blanks ++ rest) = scan .between rest := by
  induction blanks with
  | nil => rfl
  | cons c blanks ih =>
    rw [List.cons_append, scan_between_cons, if_pos (h c List.mem_cons_self)]
    exact ih fun d hd => h d (List.mem_cons_of_mem c hd)

/-! ## Words -/

theorem not_blank_of_isWordChar {c : Char} (h : isWordChar c = true) :
    isBlank c = false ∧ c ≠ '"' := by
  have hne (d : Char) (hd : isWordChar d = false) : c ≠ d := by
    rintro rfl
    rw [hd] at h
    cases h
  refine ⟨?_, hne '"' (by decide)⟩
  simp only [isBlank, hne ' ' (by decide), hne '\n' (by decide), hne '\r' (by decide),
    hne '\t' (by decide), decide_false, Bool.or_false]

/-- What the scanner does with a character behind a part of a word. -/
theorem scan_word_cons (c : Char) (read rest : List Char) : scan (.word read) (c :: rest) =
    if isWordChar c then scan (.word (c :: read)) rest
    else
      match word? read.reverse with
      | none => none
      | some value =>
        if isBlank c then (scan .between rest).map (.scalar value :: ·)
        else
          match mark? c with
          | some token => (scan .between rest).map fun tokens => .scalar value :: token :: tokens
          | none => none := rfl

theorem scan_word_append {word : List Char} (h : ∀ c ∈ word, isWordChar c = true)
    (read rest : List Char) :
    scan (.word read) (word ++ rest) = scan (.word (word.reverse ++ read)) rest := by
  induction word generalizing read with
  | nil => rfl
  | cons c word ih =>
    rw [List.cons_append, scan_word_cons, if_pos (h c List.mem_cons_self),
      ih (fun d hd => h d (List.mem_cons_of_mem c hd)), List.reverse_cons, List.append_assoc]
    rfl

/-- A word that was read to its end is what it stands for. -/
theorem scan_word {read : List Char} {value : Json} (h : word? read.reverse = some value)
    {rest : List Char} (hstops : Stops rest) :
    scan (.word read) rest = (scan .between rest).map (.scalar value :: ·) := by
  cases rest with
  | nil =>
    change (word? read.reverse).map _ = some [Token.scalar value]
    rw [h, Option.map_some]
  | cons c rest =>
    obtain ⟨hword, hquote⟩ := hstops c rfl
    simp only [scan_word_cons, scan_between_cons, hword, hquote, h, if_false, Bool.false_eq_true]
    cases isBlank c with
    | true => rfl
    | false =>
      cases mark? c with
      | none => rfl
      | some token => simp [Option.map_map, Function.comp_def]

theorem reads_word {word : List Char} {value : Json} (h : word? word = some value)
    (hword : word.all isWordChar = true) (hne : word ≠ []) : Reads word [.scalar value] := by
  intro rest tail hstops hrest
  rw [List.all_eq_true] at hword
  obtain ⟨c, word, rfl⟩ := List.exists_cons_of_ne_nil hne
  obtain ⟨hblank, hquote⟩ := not_blank_of_isWordChar (hword c List.mem_cons_self)
  have hread : word? (word.reverse ++ [c]).reverse = some value := by
    rw [List.reverse_append, List.reverse_reverse]
    exact h
  rw [List.cons_append, scan_between_cons, hblank, if_neg Bool.false_ne_true, if_neg hquote,
    if_pos (hword c List.mem_cons_self),
    scan_word_append fun d hd => hword d (List.mem_cons_of_mem c hd), scan_word hread hstops, hrest]
  rfl

/-! ## Numbers -/

theorem isDigit_of_mem_toDigits {n : Nat} {c : Char} (h : c ∈ Nat.toDigits 10 n) :
    c.isDigit = true :=
  Nat.isDigit_of_mem_toDigits (by decide) (by decide) h

/-- A number but zero is written without a zero in front. -/
theorem toDigits_ne_zero_cons {n : Nat} (h : n ≠ 0) (rest : List Char) :
    Nat.toDigits 10 n ≠ '0' :: rest := by
  induction n using Nat.strongRecOn generalizing rest with
  | ind n ih =>
    by_cases hlt : n < 10
    · rw [Nat.toDigits_of_lt_base hlt]
      intro heq
      have hzero : ∀ d < 10, d ≠ 0 → Nat.digitChar d ≠ '0' := by decide
      exact hzero n hlt h (List.cons.inj heq).1
    · rw [Nat.toDigits_of_base_le (by decide) (Nat.le_of_not_lt hlt)]
      obtain ⟨c, digits, hdigits⟩ := List.exists_cons_of_ne_nil (Nat.toDigits_ne_nil (n := n / 10)
        (b := 10))
      intro heq
      rw [hdigits, List.cons_append] at heq
      refine ih (n / 10) (by omega) (by omega) digits ?_
      rw [hdigits, (List.cons.inj heq).1]

/-- The digits of a number are read as that number. -/
theorem natural?_toDigits (n : Nat) : natural? (Nat.toDigits 10 n) = some n := by
  have hall : (Nat.toDigits 10 n).all Char.isDigit = true :=
    List.all_eq_true.mpr fun _ hc => isDigit_of_mem_toDigits hc
  by_cases hzero : n = 0
  · rw [hzero]
    decide
  · unfold natural?
    split
    · next hnil => exact absurd hnil Nat.toDigits_ne_nil
    · next hone => exact absurd hone (toDigits_ne_zero_cons hzero [])
    · next rest _ hlong => exact absurd hlong (toDigits_ne_zero_cons hzero rest)
    · rw [if_pos hall, Nat.ofDigitChars_ten_toDigits]

/-- What starts with a digit is read as a number. -/
theorem word?_toDigits (n : Nat) : word? (Nat.toDigits 10 n) = some (.int n) := by
  have hdigit {c : Char} {word : List Char} (hword : Nat.toDigits 10 n = c :: word) :
      c.isDigit = true := isDigit_of_mem_toDigits (by rw [hword]; exact List.mem_cons_self)
  unfold word?
  split
  · next hword => exact absurd (hdigit hword) (by decide)
  · next hword => exact absurd (hdigit hword) (by decide)
  · next hword => exact absurd (hdigit hword) (by decide)
  · next hword => exact absurd (hdigit hword) (by decide)
  · rw [natural?_toDigits]
    rfl

theorem word?_digits (i : Int) : word? (digits i) = some (.int i) := by
  cases i with
  | ofNat n => exact word?_toDigits n
  | negSucc n =>
    rw [digits, word?, natural?_toDigits]
    rfl

theorem reads_digits (i : Int) : Reads (digits i) [.scalar (.int i)] := by
  have hword (n : Nat) : (Nat.toDigits 10 n).all isWordChar = true := by
    rw [List.all_eq_true]
    intro c hc
    simp [isWordChar, Char.isAlphanum, isDigit_of_mem_toDigits hc]
  refine reads_word (word?_digits i) ?_ ?_
  · cases i with
    | ofNat n => exact hword n
    | negSucc n =>
      rw [digits, List.all_cons, hword (n + 1)]
      decide
  · cases i with
    | ofNat n => exact Nat.toDigits_ne_nil
    | negSucc n => exact List.cons_ne_nil _ _

/-! ## Quoted texts -/

/-- The four digits of a character below the blank. -/
theorem unit?_of_lt {n : Nat} (h : n < 32) :
    unit? '0' '0' (Nat.digitChar (n / 16)) (Nat.digitChar (n % 16)) = some n := by
  have hall : ∀ n < 32,
      unit? '0' '0' (Nat.digitChar (n / 16)) (Nat.digitChar (n % 16)) = some n := by
    decide
  exact hall n h

theorem unescape?_of_shortEscape? {c letter : Char} (h : shortEscape? c = some letter) :
    unescape? letter = some c ∧ letter ≠ 'u' := by
  unfold shortEscape? at h
  split at h <;> first | (cases h; exact ⟨rfl, by decide⟩) | cases h

theorem ne_of_shortEscape? {c : Char} (h : shortEscape? c = none) : c ≠ '"' ∧ c ≠ '\\' := by
  constructor
  · rintro rfl
    cases h
  · rintro rfl
    cases h

/-- An escaped character is read as the character. -/
theorem scan_escape (c : Char) (read rest : List Char) :
    scan (.text read) (escape c ++ rest) = scan (.text (c :: read)) rest := by
  unfold escape
  cases hshort : shortEscape? c with
  | some letter =>
    obtain ⟨hletter, hu⟩ := unescape?_of_shortEscape? hshort
    rw [List.cons_append, List.cons_append, List.nil_append, scan, hletter]
    exact fun _ _ _ _ _ heq => absurd heq hu
  | none =>
    obtain ⟨hquote, hslash⟩ := ne_of_shortEscape? hshort
    by_cases hlt : c.toNat < 32
    · have hhigh : isHighHalf c.toNat = false := by
        simp only [isHighHalf, Bool.and_eq_false_iff, decide_eq_false_iff_not]
        omega
      have hlow : isLowHalf c.toNat = false := by
        simp only [isLowHalf, Bool.and_eq_false_iff, decide_eq_false_iff_not]
        omega
      simp only [if_pos hlt, List.cons_append, List.nil_append, scan, unit?_of_lt hlt, hhigh, hlow,
        Char.ofNat_toNat, Bool.false_eq_true, if_false]
    · simp only [if_neg hlt, List.cons_append, List.nil_append]
      rw [scan, if_neg (by simp [hlt, hslash])]
      · exact fun heq => hquote heq
      · exact fun _ _ _ _ _ heq => absurd heq hslash
      · exact fun _ _ heq => absurd heq hslash

theorem scan_flatMap_escape (text read rest : List Char) :
    scan (.text read) (text.flatMap escape ++ rest) = scan (.text (text.reverse ++ read)) rest := by
  induction text generalizing read with
  | nil => rfl
  | cons c text ih =>
    rw [List.flatMap_cons, List.append_assoc, scan_escape, ih, List.reverse_cons, List.append_assoc]
    rfl

/-- A quoted text is one token, whatever comes behind it. -/
theorem scan_quoted (s : String) (rest : List Char) :
    scan .between (quoted s.toList ++ rest) = (scan .between rest).map (.text s :: ·) := by
  rw [quoted, List.append_assoc, List.cons_append, scan_between_cons, if_neg (by decide),
    if_pos rfl, scan_flatMap_escape, List.append_nil, List.cons_append, List.nil_append]
  change (scan .between rest).map (.text (String.ofList s.toList.reverse.reverse) :: ·) = _
  rw [List.reverse_reverse, String.ofList_toList]

/-! ## Arrays and objects -/

theorem lineBreak_blank (depth : Nat) (layout : Layout) :
    ∀ c ∈ lineBreak depth layout, isBlank c = true := by
  cases layout with
  | compact => exact List.forall_mem_nil _
  | indented =>
    refine List.forall_mem_cons.mpr ⟨by decide, fun c hc => ?_⟩
    rw [List.eq_of_mem_replicate hc]
    decide

/-- What follows a part ends a word: a comma, a new line or a bracket. -/
theorem stops_lineBreak_append {depth : Nat} {layout : Layout} {closing : Char} {token : Token}
    (h : mark? closing = some token) (rest : List Char) :
    Stops (lineBreak depth layout ++ closing :: rest) := by
  cases layout with
  | compact => exact stops_of_mark h rest
  | indented => exact stops_of_blank (by decide) _

/-- The parts behind the first one, with the bracket that closes them. -/
theorem scan_rest (layout : Layout) (depth : Nat) {closing : Char} {closingToken : Token}
    (hclosing : mark? closing = some closingToken) {parts : List (List Char)}
    {tokens : List (List Token)} (hparts : List.Forall₂ Reads parts tokens) {rest : List Char}
    {tail : List Token} (hrest : scan .between rest = some tail) :
    let text := (parts.flatMap fun part => ',' :: lineBreak (depth + 1) layout ++ part) ++
      (lineBreak depth layout ++ closing :: rest)
    Stops text ∧
      scan .between text = some (tokens.flatMap (.comma :: ·) ++ closingToken :: tail) := by
  induction hparts with
  | nil =>
    refine ⟨stops_lineBreak_append hclosing rest, ?_⟩
    rw [List.flatMap_nil, List.nil_append, scan_blanks (lineBreak_blank depth layout),
      scan_mark hclosing, hrest]
    rfl
  | @cons part partTokens parts tokens hpart _ ih =>
    obtain ⟨hstops, hscan⟩ := ih
    refine ⟨stops_of_mark rfl _, ?_⟩
    rw [List.flatMap_cons, List.append_assoc, List.cons_append, List.cons_append,
      scan_mark (show mark? ',' = some .comma from rfl), List.append_assoc,
      scan_blanks (lineBreak_blank (depth + 1) layout), hpart _ _ hstops hscan]
    simp only [Option.map_some, List.flatMap_cons, List.cons_append, List.append_assoc]

/-- Parts in brackets are cut into the tokens of the parts in the tokens of the brackets. -/
theorem reads_enclose {layout : Layout} {depth : Nat} {opening closing : Char}
    {openingToken closingToken : Token} (hopening : mark? opening = some openingToken)
    (hclosing : mark? closing = some closingToken) {parts : List (List Char)}
    {tokens : List (List Token)} (hparts : List.Forall₂ Reads parts tokens) :
    Reads (enclose layout depth opening closing parts)
      (encloseTokens openingToken closingToken tokens) := by
  intro rest tail hstops hrest
  cases hparts with
  | nil =>
    rw [enclose, List.cons_append, List.cons_append, List.nil_append, scan_mark hopening,
      scan_mark hclosing, hrest]
    rfl
  | @cons part partTokens parts tokens hpart hparts =>
    obtain ⟨hstops, hscan⟩ := scan_rest layout depth hclosing hparts hrest
    have htext : enclose layout depth opening closing (part :: parts) ++ rest =
        opening :: (lineBreak (depth + 1) layout ++ (part ++
          ((parts.flatMap fun part => ',' :: lineBreak (depth + 1) layout ++ part) ++
            (lineBreak depth layout ++ closing :: rest)))) := by
      simp [enclose]
    rw [htext, scan_mark hopening, scan_blanks (lineBreak_blank (depth + 1) layout),
      hpart _ _ hstops hscan]
    simp [encloseTokens]

theorem reads_member {key : String} {text : List Char} {tokens : List Token} (layout : Layout)
    (h : Reads text tokens) :
    Reads (quoted key.toList ++ colon layout ++ text) (.text key :: .colon :: tokens) := by
  intro rest tail hstops hrest
  have hcolon : scan .between (colon layout ++ (text ++ rest)) =
      (scan .between (text ++ rest)).map (.colon :: ·) := by
    cases layout <;> rfl
  rw [List.append_assoc, List.append_assoc, scan_quoted, hcolon, h rest tail hstops hrest]
  rfl

mutual

/-- **A value's text is cut into the value's tokens**, in either layout and at every level. -/
theorem reads_render (layout : Layout) (depth : Nat) :
    ∀ value : Json, Reads (render layout depth value) value.tokens
  | .null => by
    rw [render]
    exact reads_word rfl (by decide) (by decide)
  | .bool true => by
    rw [render]
    exact reads_word rfl (by decide) (by decide)
  | .bool false => by
    rw [render]
    exact reads_word rfl (by decide) (by decide)
  | .int i => reads_digits i
  | .str s => by
    intro rest tail _ hrest
    rw [render, scan_quoted, hrest]
    rfl
  | .arr items => reads_enclose rfl rfl (reads_renderItems layout (depth + 1) items)
  | .obj members => reads_enclose rfl rfl (reads_renderMembers layout (depth + 1) members)

theorem reads_renderItems (layout : Layout) (depth : Nat) :
    ∀ items : List Json, List.Forall₂ Reads (renderItems layout depth items) (itemTokens items)
  | [] => .nil
  | item :: rest => .cons (reads_render layout depth item) (reads_renderItems layout depth rest)

theorem reads_renderMembers (layout : Layout) (depth : Nat) :
    ∀ members : List (String × Json),
      List.Forall₂ Reads (renderMembers layout depth members) (memberTokens members)
  | [] => .nil
  | (_, value) :: rest =>
    .cons (reads_member layout (reads_render layout depth value))
      (reads_renderMembers layout depth rest)

end

/-- The text of a value as a whole. -/
theorem scan_text (layout : Layout) (value : Json) :
    scan .between (value.text layout).toList = some value.tokens := by
  have hread := reads_render layout 0 value [] [] stops_nil rfl
  rw [List.append_nil, List.append_nil] at hread
  rw [text, String.toList_ofList, hread]

end ShardStore.Json
