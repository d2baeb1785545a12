import ShardStore.Proofs.Json.Scanning

/-!
# Tokens build the value they come from

The tokens of a value take the builder from where it waits for a value to where it has this one
(`builds_tokens`), whatever is open around it. Together with the scanner this reads the text of
every value as the value, with all members in their order (`parse?_text`).
-/

namespace ShardStore.Json

/-- Some tokens are one value, wherever a value is waited for. -/
def Builds (tokens : List Token) (value : Json) : Prop :=
  ∀ stack, tokens.foldlM Build.next (.value stack) = some (.after stack value)

theorem foldlM_next_cons {build : Build} {token : Token} (after : Build)
    (h : build.next token = some after) (rest : List Token) :
    (token :: rest).foldlM Build.next build = rest.foldlM Build.next after := by
  rw [List.foldlM_cons, h]
  rfl

/-- A value does not start as the end of an array. -/
theorem foldlM_firstItem (value : Json) (rest : List Token) (stack : List Frame) :
    (value.tokens ++ rest).foldlM Build.next (.firstItem stack) =
      (value.tokens ++ rest).foldlM Build.next (.value (.array [] :: stack)) := by
  cases value with
  | arr items =>
    rw [tokens]
    cases itemTokens items <;> rfl
  | obj members =>
    rw [tokens]
    cases memberTokens members <;> rfl
  | _ => rfl

/-- The items behind the first one, and the end of the array. -/
theorem foldlM_items {items : List Json} {parts : List (List Token)}
    (h : List.Forall₂ Builds parts items) (stack : List Frame) (read : List Json) (item : Json) :
    (parts.flatMap (Token.comma :: ·) ++ [Token.bracketClose]).foldlM Build.next
        (.after (.array read :: stack) item) =
      some (.after stack (.arr (read.reverse ++ item :: items))) := by
  induction h generalizing read item with
  | nil =>
    rw [List.flatMap_nil, List.nil_append,
      foldlM_next_cons (.after stack (.arr (item :: read).reverse)) rfl, List.reverse_cons]
    rfl
  | @cons part value parts items hpart _ ih =>
    rw [List.flatMap_cons, List.append_assoc, List.cons_append,
      foldlM_next_cons (.value (.array (item :: read) :: stack)) rfl,
      List.foldlM_append, hpart]
    refine (ih (item :: read) value).trans ?_
    rw [List.reverse_cons, List.append_assoc]
    rfl

theorem builds_arr {item : Json} {items : List Json} {parts : List (List Token)}
    (hitem : Builds item.tokens item) (h : List.Forall₂ Builds parts items) :
    Builds (encloseTokens .bracketOpen .bracketClose (item.tokens :: parts))
      (.arr (item :: items)) := by
  intro stack
  rw [encloseTokens, List.append_assoc, List.cons_append,
    foldlM_next_cons (.firstItem stack) rfl, foldlM_firstItem, List.foldlM_append, hitem]
  exact foldlM_items h stack [] item

/-- The tokens of a member. -/
def BuildsMember (tokens : List Token) (member : String × Json) : Prop :=
  ∃ value, tokens = .text member.1 :: .colon :: value ∧ Builds value member.2

/-- The members behind the first one, and the end of the object. -/
theorem foldlM_members {members : List (String × Json)} {parts : List (List Token)}
    (h : List.Forall₂ BuildsMember parts members) (stack : List Frame)
    (read : List (String × Json)) (key : String) (value : Json) :
    (parts.flatMap (Token.comma :: ·) ++ [Token.braceClose]).foldlM Build.next
        (.after (.object read key :: stack) value) =
      some (.after stack (.obj (read.reverse ++ (key, value) :: members))) := by
  induction h generalizing read key value with
  | nil =>
    rw [List.flatMap_nil, List.nil_append,
      foldlM_next_cons (.after stack (.obj ((key, value) :: read).reverse)) rfl,
      List.reverse_cons]
    rfl
  | @cons part member parts members hpart _ ih =>
    obtain ⟨tokens, rfl, hvalue⟩ := hpart
    rw [List.flatMap_cons, List.append_assoc, List.cons_append, List.cons_append,
      List.cons_append, foldlM_next_cons (.key stack ((key, value) :: read)) rfl,
      foldlM_next_cons (.colon stack ((key, value) :: read) member.1) rfl,
      foldlM_next_cons (.value (.object ((key, value) :: read) member.1 :: stack)) rfl,
      List.foldlM_append, hvalue]
    refine (ih ((key, value) :: read) member.1 member.2).trans ?_
    rw [List.reverse_cons, List.append_assoc]
    rfl

theorem builds_obj {member : String × Json} {members : List (String × Json)}
    {part : List Token} {parts : List (List Token)} (hmember : BuildsMember part member)
    (h : List.Forall₂ BuildsMember parts members) :
    Builds (encloseTokens .braceOpen .braceClose (part :: parts)) (.obj (member :: members)) := by
  intro stack
  obtain ⟨tokens, rfl, hvalue⟩ := hmember
  rw [encloseTokens, List.append_assoc, List.cons_append, List.cons_append, List.cons_append,
    foldlM_next_cons (.firstKey stack) rfl,
    foldlM_next_cons (.colon stack [] member.1) rfl,
    foldlM_next_cons (.value (.object [] member.1 :: stack)) rfl,
    List.foldlM_append, hvalue]
  exact foldlM_members h stack [] member.1 member.2

mutual

/-- **A value's tokens build the value.** -/
theorem builds_tokens : ∀ value : Json, Builds value.tokens value
  | .null => fun _ => rfl
  | .bool _ => fun _ => rfl
  | .int _ => fun _ => rfl
  | .str _ => fun _ => rfl
  | .arr [] => fun _ => rfl
  | .arr (item :: items) => builds_arr (builds_tokens item) (builds_itemTokens items)
  | .obj [] => fun _ => rfl
  | .obj ((_, value) :: members) =>
    builds_obj ⟨value.tokens, rfl, builds_tokens value⟩ (builds_memberTokens members)

theorem builds_itemTokens : ∀ items : List Json, List.Forall₂ Builds (itemTokens items) items
  | [] => .nil
  | item :: items => .cons (builds_tokens item) (builds_itemTokens items)

theorem builds_memberTokens :
    ∀ members : List (String × Json), List.Forall₂ BuildsMember (memberTokens members) members
  | [] => .nil
  | (_, value) :: members =>
    .cons ⟨value.tokens, rfl, builds_tokens value⟩ (builds_memberTokens members)

end

/-- **Reading undoes writing**, in either layout. -/
theorem parse?_text (layout : Layout) (value : Json) : parse? (value.text layout) = some value := by
  rw [parse?, scan_text, Option.bind_eq_bind, Option.bind_some, ofTokens?, builds_tokens value []]
  rfl

end ShardStore.Json
