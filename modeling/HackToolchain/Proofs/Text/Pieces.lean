import HackToolchain.Proofs.Text.Plain

/-!
# Pieces put together

The pieces of a text between separators give the text back when a separator is put behind each piece
but the last, and pieces without a separator that are put together so are found again.
-/

namespace HackToolchain

namespace Text

variable {p : Char → Bool} {sep : Char}

theorem not_sep_of_mem_pieces {cs part : List Char} (h : part ∈ pieces p cs)
    {c : Char} (hc : c ∈ part) : p c = false := by
  induction cs generalizing part with
  | nil =>
      obtain rfl : part = [] := by simpa using h
      simp at hc
  | cons d cs ih =>
      rw [pieces_cons, extendPieces.eq_def] at h
      split at h
      · rcases List.mem_cons.1 h with rfl | h
        · simp at hc
        · exact ih h hc
      · next hd =>
          rw [Bool.not_eq_true] at hd
          split at h
          · next hpieces => exact absurd hpieces (pieces_ne_nil p cs)
          · next first rest hpieces =>
              rw [hpieces] at ih
              rcases List.mem_cons.1 h with rfl | h
              · rcases List.mem_cons.1 hc with rfl | hc
                · exact hd
                · exact ih List.mem_cons_self hc
              · exact ih (List.mem_cons_of_mem _ h) hc

/-- Pieces with a separator behind each of them, and a last piece. -/
theorem pieces_flatMap_append (hsep : p sep = true) {parts : List (List Char)} {last : List Char}
    (hparts : ∀ part ∈ parts, ∀ c ∈ part, p c = false) (hlast : ∀ c ∈ last, p c = false) :
    pieces p ((parts.flatMap fun part => part ++ [sep]) ++ last) = parts ++ [last] := by
  induction parts with
  | nil => exact pieces_of_forall_not hlast
  | cons part parts ih =>
      obtain ⟨hpart, hparts⟩ := List.forall_mem_cons.1 hparts
      rw [List.flatMap_cons, List.append_assoc, List.append_assoc, List.singleton_append,
        pieces_append_sep hsep, pieces_of_forall_not hpart, ih hparts]
      rfl

theorem intercalate_append_singleton (parts : List (List Char)) (last : List Char) :
    [sep].intercalate (parts ++ [last]) = (parts.flatMap fun part => part ++ [sep]) ++ last := by
  induction parts with
  | nil => exact List.intercalate_singleton
  | cons part parts ih =>
      cases parts with
      | nil => simp
      | cons next parts =>
          rw [List.cons_append, List.cons_append, List.intercalate_cons_cons, ← List.cons_append, ih]
          simp only [List.flatMap_cons, List.append_assoc]

/-- Pieces without a separator are found again when separators stand between them. -/
theorem pieces_intercalate (hsep : p sep = true) {parts : List (List Char)} (hne : parts ≠ [])
    (h : ∀ part ∈ parts, ∀ c ∈ part, p c = false) :
    pieces p ([sep].intercalate parts) = parts := by
  rw [← List.dropLast_append_getLast hne] at h ⊢
  obtain ⟨hparts, hlast⟩ := List.forall_mem_append.1 h
  rw [intercalate_append_singleton,
    pieces_flatMap_append hsep hparts (hlast _ (List.mem_singleton_self _))]

theorem exists_parts (sep : Char) (cs : List Char) :
    ∃ (parts : List (List Char)) (last : List Char),
      cs = (parts.flatMap fun part => part ++ [sep]) ++ last ∧
        (∀ part ∈ parts, sep ∉ part) ∧ sep ∉ last := by
  induction cs with
  | nil => exact ⟨[], [], rfl, by simp, by simp⟩
  | cons c cs ih =>
      obtain ⟨parts, last, rfl, hparts, hlast⟩ := ih
      by_cases hc : c = sep
      · subst hc
        exact ⟨[] :: parts, last, rfl, by simpa using hparts, hlast⟩
      · cases parts with
        | nil => exact ⟨[], c :: last, rfl, by simp, by simp [Ne.symm hc, hlast]⟩
        | cons part parts =>
            obtain ⟨hpart, hparts⟩ := List.forall_mem_cons.1 hparts
            refine ⟨(c :: part) :: parts, last, rfl, List.forall_mem_cons.2 ⟨?_, hparts⟩, hlast⟩
            simp [Ne.symm hc, hpart]

end Text

end HackToolchain
