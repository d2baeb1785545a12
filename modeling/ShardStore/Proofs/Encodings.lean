import ShardStore.Encoding

/-!
# The two forms of an encoding

Where a JSON value holds every integer of a description, the value form is the text form with the
members of every object in order, and refuses with the same text. Where it does not, there is no
value form, and the refusal is that of the text form or is for such an integer. `Encoding.Tracks`
says both at once, so that one induction over descriptions gives all that is used of the two forms:
when they succeed (`exists_write_value_iff`) and why one is refused (`write_text_or_outOfRange`).
-/

namespace ShardStore

/-! ## The text form of a JSON value -/

mutual

/-- Written to a text, a JSON value is itself. -/
theorem Json.write_text_encoding : ∀ value : Json, value.encoding.write .text = .ok value
  | .null => rfl
  | .bool _ => rfl
  | .int _ => rfl
  | .str _ => rfl
  | .arr items => by
    rw [encoding, Encoding.write, writeItems_text_encodings items]
    rfl
  | .obj members => by
    rw [encoding, Encoding.write, writeMembers_text_encodings members]
    rfl

theorem Json.writeItems_text_encodings : ∀ items : List Json,
    Encoding.writeItems .text (itemEncodings items) = .ok items
  | [] => rfl
  | item :: rest => by
    rw [itemEncodings, Encoding.writeItems, write_text_encoding item,
      writeItems_text_encodings rest]
    rfl

theorem Json.writeMembers_text_encodings : ∀ members : List (String × Json),
    Encoding.writeMembers .text (memberEncodings members) = .ok members
  | [] => rfl
  | (key, value) :: rest => by
    rw [memberEncodings, Encoding.writeMembers, write_text_encoding value,
      writeMembers_text_encodings rest]
    rfl

end

/-! ## The two forms side by side -/

namespace Encoding

variable {α β γ : Type} {fits : Bool} {value text : Except String α} {message : String}

/-- If `fits`, the value form is the text form with everything in order. Otherwise it is refused, as
the text form is or for an integer out of range. -/
def Tracks (fits : Bool) (canonical : α → α) (value text : Except String α) : Prop :=
  fits = true ∧ value = text.map canonical ∨
    fits = false ∧ ∃ message, value = .error message ∧
      (text = .error message ∨ message = outOfRange)

/-- Wrapping what was written. -/
theorem Tracks.map {canonical : α → α} {canonical' : β → β} {wrap wrap' : α → β}
    (h : Tracks fits canonical value text)
    (hwrap : ∀ a, wrap (canonical a) = canonical' (wrap' a)) :
    Tracks fits canonical' (value.map wrap) (text.map wrap') := by
  obtain ⟨hfits, rfl⟩ | ⟨hfits, message, rfl, htext⟩ := h
  · refine .inl ⟨hfits, ?_⟩
    cases text with
    | ok a => exact congrArg Except.ok (hwrap a)
    | error message => rfl
  · exact .inr ⟨hfits, message, rfl, htext.imp_left fun htext => by rw [htext]; rfl⟩

/-- Writing one part and then another. -/
def inTurn (join : α → β → γ) (first : Except String α) (second : Except String β) :
    Except String γ :=
  match first with
  | .ok a => second.map (join a)
  | .error message => .error message

theorem Tracks.inTurn {fits' : Bool} {value' text' : Except String β} {canonical : α → α}
    {canonical' : β → β} {canonical'' : γ → γ} {join : α → β → γ}
    (h : Tracks fits canonical value text) (h' : Tracks fits' canonical' value' text')
    (hjoin : ∀ a b, join (canonical a) (canonical' b) = canonical'' (join a b)) :
    Tracks (fits && fits') canonical'' (inTurn join value value') (inTurn join text text') := by
  obtain ⟨rfl, rfl⟩ | ⟨rfl, message, rfl, htext⟩ := h
  · cases text with
    | ok a => exact h'.map (hjoin a)
    | error message =>
      -- The first part is refused in both forms, whatever the second one is.
      cases fits' with
      | true => exact .inl ⟨rfl, rfl⟩
      | false => exact .inr ⟨rfl, message, rfl, .inl rfl⟩
  · exact .inr ⟨rfl, message, rfl, htext.imp_left fun htext => by rw [htext]; rfl⟩

theorem writeItems_cons (form : Form) (item : Encoding) (rest : List Encoding) :
    writeItems form (item :: rest) =
      inTurn List.cons (item.write form) (writeItems form rest) := by
  rw [writeItems]
  cases item.write form <;> rfl

theorem writeMembers_cons (form : Form) (key : String) (member : Encoding)
    (rest : List (String × Encoding)) :
    writeMembers form ((key, member) :: rest) =
      inTurn (fun value members => (key, value) :: members) (member.write form)
        (writeMembers form rest) := by
  rw [writeMembers]
  cases member.write form <;> rfl

mutual

/-- The value form of a description tracks its text form. -/
theorem tracks : ∀ encoding : Encoding,
    Tracks encoding.fits Json.canonical (encoding.write .value) (encoding.write .text)
  | .null => .inl ⟨rfl, rfl⟩
  | .bool _ => .inl ⟨rfl, rfl⟩
  | .int i => by
    cases hholds : Form.value.holds i with
    | true => exact .inl ⟨hholds, if_pos hholds⟩
    | false => exact .inr ⟨hholds, outOfRange, if_neg (Bool.eq_false_iff.mp hholds), .inr rfl⟩
  | .str _ => .inl ⟨rfl, rfl⟩
  | .arr items => (tracks_items items).map fun _ => rfl
  | .obj members => (tracks_members members).map fun _ => rfl
  | .refusal _ => .inl ⟨rfl, rfl⟩

theorem tracks_items : ∀ items : List Encoding,
    Tracks (itemsFit items) Json.canonicalItems (writeItems .value items) (writeItems .text items)
  | [] => .inl ⟨rfl, rfl⟩
  | item :: rest => by
    rw [writeItems_cons, writeItems_cons]
    exact (tracks item).inTurn (tracks_items rest) fun _ _ => rfl

theorem tracks_members : ∀ members : List (String × Encoding),
    Tracks (membersFit members) Json.canonicalMembers (writeMembers .value members)
      (writeMembers .text members)
  | [] => .inl ⟨rfl, rfl⟩
  | (key, member) :: rest => by
    rw [writeMembers_cons, writeMembers_cons]
    exact (tracks member).inTurn (tracks_members rest) fun _ _ => rfl

end

variable {encoding : Encoding}

/-- Where every integer fits, the value form is the text form in order, and refuses alike. -/
theorem write_value_of_fits (h : encoding.fits = true) :
    encoding.write .value = (encoding.write .text).map Json.canonical := by
  obtain ⟨-, hvalue⟩ | ⟨hfits, -⟩ := encoding.tracks
  · exact hvalue
  · rw [h] at hfits
    cases hfits

/-- The value form succeeds exactly where the text form does and every integer is one that a JSON
value holds. -/
theorem exists_write_value_iff :
    (∃ json, encoding.write .value = .ok json) ↔
      (∃ json, encoding.write .text = .ok json) ∧ encoding.fits = true := by
  obtain ⟨hfits, hvalue⟩ | ⟨hfits, message, hvalue, -⟩ := encoding.tracks
  · rw [hvalue]
    cases encoding.write .text <;> simp [Except.map, hfits]
  · simp [hvalue, hfits]

/-- What refuses the value form refuses the text form with the same text, or has an integer that a
JSON value does not hold. -/
theorem write_text_or_outOfRange (h : encoding.write .value = .error message) :
    encoding.write .text = .error message ∨ message = outOfRange ∧ encoding.fits = false := by
  obtain ⟨-, hvalue⟩ | ⟨hfits, message', hvalue, htext⟩ := encoding.tracks
  · rw [h] at hvalue
    cases htext : encoding.write .text with
    | ok json => rw [htext] at hvalue; cases hvalue
    | error refused => rw [htext] at hvalue; cases hvalue; exact .inl rfl
  · obtain rfl : message' = message := Except.error.inj (hvalue.symm.trans h)
    exact htext.imp_right fun hmessage => ⟨hmessage, hfits⟩

end Encoding

end ShardStore
