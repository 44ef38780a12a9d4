import HackToolchain.Text.Blank

/-!
# Cutting text at separators

`pieces p cs` cuts a text at every character that satisfies `p`: there is one piece more than there
are separators, and the separators themselves are gone. The fields of a line are its non-empty
pieces between blanks. `splitFirst sep cs` cuts once, at the leftmost occurrence of the word `sep`.
-/

namespace HackToolchain

namespace Text

/-- Puts a character in front of the first piece, or a new empty piece in front of all. -/
def extendPieces (p : Char → Bool) (c : Char) (parts : List (List Char)) : List (List Char) :=
  if p c then [] :: parts
  else match parts with
    | [] => [[c]]
    | part :: rest => (c :: part) :: rest

/-- The pieces of a text between the characters that satisfy `p`. -/
def pieces (p : Char → Bool) (cs : List Char) : List (List Char) :=
  cs.foldr (extendPieces p) [[]]

@[simp] theorem pieces_nil (p : Char → Bool) : pieces p [] = [[]] := rfl

theorem pieces_cons (p : Char → Bool) (c : Char) (cs : List Char) :
    pieces p (c :: cs) = extendPieces p c (pieces p cs) := rfl

theorem pieces_cons_sep {p : Char → Bool} {c : Char} (h : p c = true) (cs : List Char) :
    pieces p (c :: cs) = [] :: pieces p cs := by
  simp [pieces_cons, extendPieces, h]

theorem pieces_ne_nil (p : Char → Bool) (cs : List Char) : pieces p cs ≠ [] := by
  cases cs with
  | nil => simp
  | cons c cs =>
      rw [pieces_cons]
      unfold extendPieces
      split
      · simp
      · split <;> simp

theorem pieces_append_sep {p : Char → Bool} {c : Char} (h : p c = true) (before after : List Char) :
    pieces p (before ++ c :: after) = pieces p before ++ pieces p after := by
  induction before with
  | nil => simp [pieces_cons_sep h]
  | cons b before ih =>
      rw [List.cons_append, pieces_cons, pieces_cons, ih]
      cases hp : pieces p before with
      | nil => exact absurd hp (pieces_ne_nil p before)
      | cons part rest =>
          unfold extendPieces
          split <;> simp

/-- The fields of a line: its non-empty pieces between blanks. -/
def fields (cs : List Char) : List (List Char) :=
  (pieces isBlank cs).filter (!·.isEmpty)

@[simp] theorem fields_nil : fields [] = [] := rfl

/-- Looks for `sep` with the characters already passed kept in reverse. -/
def splitFirstFrom (sep passed : List Char) : List Char → Option (List Char × List Char)
  | [] => if sep.isEmpty then some (passed.reverse, []) else none
  | c :: cs =>
      if sep.isPrefixOf (c :: cs) then some (passed.reverse, (c :: cs).drop sep.length)
      else splitFirstFrom sep (c :: passed) cs

/-- The texts before and after the leftmost occurrence of `sep`. -/
def splitFirst (sep cs : List Char) : Option (List Char × List Char) :=
  splitFirstFrom sep [] cs

theorem splitFirstFrom_eq (sep passed cs : List Char) :
    splitFirstFrom sep passed cs =
      (splitFirst sep cs).map fun parts => (passed.reverse ++ parts.1, parts.2) := by
  induction cs generalizing passed with
  | nil =>
      unfold splitFirst splitFirstFrom
      split <;> simp
  | cons c cs ih =>
      unfold splitFirst splitFirstFrom
      split
      · simp
      · rw [ih (c :: passed), ih [c], Option.map_map]
        congr 1
        funext parts
        simp

theorem splitFirst_cons_of_occurs {sep : List Char} {c : Char} {cs : List Char}
    (h : sep.isPrefixOf (c :: cs) = true) :
    splitFirst sep (c :: cs) = some ([], (c :: cs).drop sep.length) := by
  simp [splitFirst, splitFirstFrom, h]

theorem splitFirst_cons_of_not_occurs {sep : List Char} {c : Char} {cs : List Char}
    (h : sep.isPrefixOf (c :: cs) = false) :
    splitFirst sep (c :: cs) =
      (splitFirst sep cs).map fun parts => (c :: parts.1, parts.2) := by
  rw [splitFirst, splitFirstFrom, if_neg (by simp [h]), splitFirstFrom_eq]
  simp

/-- A cut loses nothing but the separator. -/
theorem eq_append_of_splitFirst {sep cs before after : List Char}
    (h : splitFirst sep cs = some (before, after)) : cs = before ++ sep ++ after := by
  induction cs generalizing before with
  | nil =>
      cases sep with
      | nil =>
          obtain ⟨rfl, rfl⟩ : [] = before ∧ [] = after := by
            simpa [splitFirst, splitFirstFrom] using h
          rfl
      | cons s sep => simp [splitFirst, splitFirstFrom] at h
  | cons c cs ih =>
      cases hp : sep.isPrefixOf (c :: cs) with
      | true =>
          rw [splitFirst_cons_of_occurs hp] at h
          obtain ⟨rfl, rfl⟩ : [] = before ∧ (c :: cs).drop sep.length = after := by
            simpa using h
          obtain ⟨rest, hrest⟩ := List.isPrefixOf_iff_prefix.1 hp
          rw [← hrest]
          simp
      | false =>
          rw [splitFirst_cons_of_not_occurs hp, Option.map_eq_some_iff] at h
          obtain ⟨⟨start, rest⟩, hsplit, hparts⟩ := h
          obtain ⟨rfl, rfl⟩ : c :: start = before ∧ rest = after := by simpa using hparts
          simp [ih hsplit]

/-- The text before the first `//`, which opens a comment. -/
def beforeComment (cs : List Char) : List Char :=
  match splitFirst ['/', '/'] cs with
  | some (before, _) => before
  | none => cs

/-- What a source line says: the text before its comment, trimmed. -/
def code (cs : List Char) : List Char :=
  trim (beforeComment cs)

end Text

end HackToolchain
