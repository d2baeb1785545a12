import ShardStore.Refusal

/-!
# What is shown for a refusal

Which texts have a position (`Position.Ends`), and what is shown for them (`Refusal.Shown`): the
position is taken off and written again in plain digits, or not at all if its line is zero. Any
other text is shown as it is.

The last ` at line ` of a text is found from behind, and what follows it in a position has no other
one in it: a blank is followed by a digit there or by the `c` of ` column `, never by an `a`.
-/

namespace ShardStore

namespace Position

/-- A text is `front` with a position behind it; zeros may stand in front of the numbers. -/
def Ends (text front : List Char) (position : Position) : Prop :=
  ∃ line column, text = front ++ lineMark ++ (line ++ columnMark ++ column) ∧
    number? line = some position.line ∧ number? column = some position.column

theorem isPrefixOf?_append (mark rest : List Char) :
    mark.isPrefixOf? (mark ++ rest) = some rest := by
  induction mark with
  | nil => rfl
  | cons m mark ih =>
    change (if m == m then mark.isPrefixOf? (mark ++ rest) else none) = some rest
    rw [BEq.rfl, if_pos rfl, ih]

/-- What is read as a number is digits, at least one. -/
theorem digits_of_number? {digits : List Char} {n : Nat} (h : number? digits = some n) :
    digits ≠ [] ∧ ∀ c ∈ digits, c.isDigit = true := by
  unfold number? at h
  dsimp only at h
  split at h
  · next hall => exact ⟨hall.1, List.all_eq_true.mp hall.2.1⟩
  · cases h

/-! ## The numbers of a position -/

theorem takeWhile_isDigit_append {line : List Char} (h : ∀ c ∈ line, c.isDigit = true)
    (column : List Char) :
    (line ++ columnMark ++ column).takeWhile Char.isDigit = line ∧
      (line ++ columnMark ++ column).dropWhile Char.isDigit = columnMark ++ column := by
  rw [List.append_assoc, List.takeWhile_append_of_pos h, List.dropWhile_append_of_pos h]
  exact ⟨List.append_nil line, rfl⟩

/-- A text spells out a position exactly when it is two numbers with the mark of the column. -/
theorem ofDigits?_eq_some_iff {text : List Char} {position : Position} :
    ofDigits? text = some position ↔ ∃ line column, text = line ++ columnMark ++ column ∧
      number? line = some position.line ∧ number? column = some position.column := by
  constructor
  · intro h
    simp only [ofDigits?, Option.bind_eq_bind, Option.bind_eq_some_iff] at h
    obtain ⟨column, hmark, n, hline, m, hcolumn, hposition⟩ := h
    cases hposition
    refine ⟨text.takeWhile Char.isDigit, column, ?_, hline, hcolumn⟩
    rw [List.append_assoc, append_eq_of_isPrefixOf? hmark, List.takeWhile_append_dropWhile]
  · rintro ⟨line, column, rfl, hline, hcolumn⟩
    obtain ⟨htake, hdrop⟩ := takeWhile_isDigit_append (digits_of_number? hline).2 column
    simp only [ofDigits?, htake, hdrop, isPrefixOf?_append, hline, hcolumn, Option.bind_eq_bind,
      Option.bind_some]
    rfl

/-! ## The last mark -/

/-- A mark that does not occur again after its first character is the last one. -/
theorem splitLast?_append {mark back : List Char} (hmark : mark ≠ [])
    (h : splitLast? mark (mark.tail ++ back) = none) (front : List Char) :
    splitLast? mark (front ++ mark ++ back) = some (front, back) := by
  obtain ⟨m, rest, rfl⟩ := List.exists_cons_of_ne_nil hmark
  induction front with
  | nil =>
    rw [List.tail_cons] at h
    rw [List.nil_append, List.cons_append, splitLast?, h, ← List.cons_append, isPrefixOf?_append]
    rfl
  | cons c front ih => rw [List.cons_append, List.cons_append, splitLast?, ih]

/-- No mark of a line starts at a character that is not a blank before an `a`. -/
theorem splitLast?_lineMark_cons {c : Char} {rest : List Char}
    (hc : c ≠ ' ' ∨ rest.head? ≠ some 'a') (h : splitLast? lineMark rest = none) :
    splitLast? lineMark (c :: rest) = none := by
  rw [splitLast?, h, Option.map_eq_none_iff]
  cases hmark : lineMark.isPrefixOf? (c :: rest) with
  | none => rfl
  | some back =>
    cases append_eq_of_isPrefixOf? hmark
    rcases hc with hc | hc <;> exact absurd rfl hc

/-- No mark of a line starts inside a word. -/
theorem splitLast?_lineMark_append (word : List Char) (hword : ' ' ∉ word)
    {rest : List Char} (h : splitLast? lineMark rest = none) :
    splitLast? lineMark (word ++ rest) = none := by
  induction word with
  | nil => exact h
  | cons c word ih =>
    rw [List.mem_cons, not_or] at hword
    exact splitLast?_lineMark_cons (.inl (Ne.symm hword.1)) (ih hword.2)

theorem blank_notMem_of_number? {digits : List Char} {n : Nat} (h : number? digits = some n) :
    ' ' ∉ digits := by
  intro hblank
  exact absurd ((digits_of_number? h).2 ' ' hblank) (by decide)

/-- A number does not start with an `a`. -/
theorem head?_ne_of_number? {digits : List Char} {n : Nat} (h : number? digits = some n)
    (rest : List Char) : (digits ++ rest).head? ≠ some 'a' := by
  obtain ⟨hne, hdigits⟩ := digits_of_number? h
  cases digits with
  | nil => exact absurd rfl hne
  | cons c digits =>
    rintro ⟨⟩
    exact absurd (hdigits 'a' List.mem_cons_self) (by decide)

/-- After its first character, a position has no mark of a line. -/
theorem splitLast?_lineMark_position {line column : List Char} {n m : Nat}
    (hline : number? line = some n) (hcolumn : number? column = some m) :
    splitLast? lineMark (lineMark.tail ++ (line ++ columnMark ++ column)) = none := by
  -- From the end: the column, its mark, the line, and what is left of the mark of the line.
  have hlast : splitLast? lineMark (column ++ []) = none :=
    splitLast?_lineMark_append _ (blank_notMem_of_number? hcolumn) rfl
  have hmark : splitLast? lineMark (columnMark ++ column) = none := by
    rw [List.append_nil] at hlast
    have hblank := splitLast?_lineMark_cons (c := ' ')
      (.inr (by simpa using head?_ne_of_number? hcolumn [])) hlast
    have hword := splitLast?_lineMark_append ['c', 'o', 'l', 'u', 'm', 'n'] (by decide)
      hblank
    exact splitLast?_lineMark_cons (.inr (by simp)) hword
  have hnumbers : splitLast? lineMark (line ++ columnMark ++ column) = none := by
    rw [List.append_assoc]
    exact splitLast?_lineMark_append _ (blank_notMem_of_number? hline) hmark
  have hblank := splitLast?_lineMark_cons (c := ' ')
    (.inr (by simpa using head?_ne_of_number? hline (columnMark ++ column))) hnumbers
  have hword := splitLast?_lineMark_append ['l', 'i', 'n', 'e'] (by decide) hblank
  have hblank' := splitLast?_lineMark_cons (c := ' ') (.inr (by simp)) hword
  exact splitLast?_lineMark_append ['a', 't'] (by decide) hblank'

end Position

namespace Refusal

open Position

/-- What is shown for a refusal with a text. -/
def Shown (text shown : String) : Prop :=
  (∃ front position, Ends text.toList front position ∧
    shown.toList = if position.line = 0 then front else front ++ position.text) ∨
  (∀ front position, ¬Ends text.toList front position) ∧ shown = text

theorem ofText_of_ends {text : String} {front : List Char} {position : Position}
    (h : Ends text.toList front position) :
    ofText text = { message := String.ofList front
                    position := if position.line = 0 then none else some position } := by
  obtain ⟨line, column, htext, hline, hcolumn⟩ := h
  have hsplit := splitLast?_append (by decide) (splitLast?_lineMark_position hline hcolumn) front
  have hdigits := ofDigits?_eq_some_iff.mpr ⟨line, column, rfl, hline, hcolumn⟩
  simp only [ofText, htext, hsplit, hdigits]

theorem ofText_of_not_ends {text : String}
    (h : ∀ front position, ¬Ends text.toList front position) :
    ofText text = { message := text } := by
  unfold ofText
  split
  · rfl
  · next front rest hsplit =>
    split
    · rfl
    · next position hdigits =>
      obtain ⟨line, column, rfl, hline, hcolumn⟩ := ofDigits?_eq_some_iff.mp hdigits
      exact absurd ⟨line, column, eq_of_splitLast?_eq_some hsplit, hline, hcolumn⟩
        (h front position)

/-- What is shown is the text, but for a position at its end. -/
theorem shown_ofText (text : String) : Shown text (ofText text).display := by
  by_cases h : ∃ front position, Ends text.toList front position
  · obtain ⟨front, position, hends⟩ := h
    refine .inl ⟨front, position, hends, ?_⟩
    rw [ofText_of_ends hends, display]
    by_cases hzero : position.line = 0
    · simp [hzero]
    · simp [hzero]
  · simp only [not_exists] at h
    refine .inr ⟨h, ?_⟩
    rw [ofText_of_not_ends h]
    rfl

end Refusal

end ShardStore
