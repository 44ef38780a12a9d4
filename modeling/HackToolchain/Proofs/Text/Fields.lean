import HackToolchain.Proofs.Text.Plain

/-!
# The fields of a line

A line consists of blanks, a word without blanks, blanks again, and so on. The words are its fields:
`fields` finds them, in any line, with any blanks between them and at its ends.
-/

namespace HackToolchain

namespace Text

theorem fields_append_blank {c : Char} (h : isBlank c = true) (before after : List Char) :
    fields (before ++ c :: after) = fields before ++ fields after := by
  rw [fields, pieces_append_sep h, List.filter_append]
  rfl

theorem fields_of_forall_not_blank {cs : List Char} (hne : cs ≠ [])
    (h : ∀ c ∈ cs, isBlank c = false) : fields cs = [cs] := by
  rw [fields, pieces_of_forall_not h]
  simp [hne]

/-- A line consists of the given words, with blanks around them and at least one between any two. -/
inductive HasFields : List Char → List (List Char) → Prop
  | blank {cs : List Char} (h : ∀ c ∈ cs, isBlank c = true) : HasFields cs []
  | word {lead word rest : List Char} {words : List (List Char)}
      (hlead : ∀ c ∈ lead, isBlank c = true) (hne : word ≠ [])
      (hword : ∀ c ∈ word, isBlank c = false) (hend : ∀ c ∈ rest.head?, isBlank c = true)
      (hrest : HasFields rest words) : HasFields (lead ++ word ++ rest) (word :: words)

theorem fields_blanks_append {lead : List Char} (h : ∀ c ∈ lead, isBlank c = true)
    (cs : List Char) : fields (lead ++ cs) = fields cs := by
  induction lead with
  | nil => rfl
  | cons c lead ih =>
      obtain ⟨hc, hlead⟩ := List.forall_mem_cons.1 h
      have hsplit := fields_append_blank hc [] (lead ++ cs)
      rwa [fields_nil, List.nil_append, List.nil_append, ih hlead] at hsplit

theorem HasFields.fields_eq {cs : List Char} {words : List (List Char)} (h : HasFields cs words) :
    fields cs = words := by
  induction h with
  | @blank cs h =>
      have hblank := fields_blanks_append h []
      rwa [List.append_nil] at hblank
  | @word lead word rest words hlead hne hword hend hrest ih =>
      rw [List.append_assoc, fields_blanks_append hlead]
      cases rest with
      | nil =>
          rw [List.append_nil, fields_of_forall_not_blank hne hword, ← ih]
          rfl
      | cons c rest =>
          have hc := hend c rfl
          have hrest' : fields rest = words := by
            rw [← ih]
            exact (fields_blanks_append (List.forall_mem_singleton.2 hc) rest).symm
          rw [fields_append_blank hc, fields_of_forall_not_blank hne hword, hrest',
            List.singleton_append]

/-- One more blank in front of a line changes none of its words. -/
theorem HasFields.cons_blank {c : Char} {cs : List Char} {words : List (List Char)}
    (hc : isBlank c = true) (h : HasFields cs words) : HasFields (c :: cs) words := by
  cases h with
  | blank h => exact .blank (List.forall_mem_cons.2 ⟨hc, h⟩)
  | @word lead word rest words hlead hne hword hend hrest =>
      exact @HasFields.word (c :: lead) _ _ _ (List.forall_mem_cons.2 ⟨hc, hlead⟩) hne hword hend
        hrest

/-- One more character in front of a line that is no blank is a word of its own before a blank, and
a part of the first word otherwise. -/
theorem HasFields.exists_cons {c : Char} {cs : List Char} {words : List (List Char)}
    (hc : isBlank c = false) (h : HasFields cs words) : ∃ words', HasFields (c :: cs) words' := by
  by_cases hend : ∀ d ∈ cs.head?, isBlank d = true
  · exact ⟨[c] :: words, @HasFields.word [] [c] _ _ (List.forall_mem_nil _)
      (List.cons_ne_nil c []) (List.forall_mem_singleton.2 hc) hend h⟩
  · cases h with
    | blank hblank => exact absurd (fun d hd => hblank d (List.mem_of_mem_head? hd)) hend
    | @word lead word rest words hlead hne hword hend' hrest =>
        cases lead with
        | nil =>
            exact ⟨(c :: word) :: words, @HasFields.word [] (c :: word) _ _
              (List.forall_mem_nil _) (List.cons_ne_nil c word)
              (List.forall_mem_cons.2 ⟨hc, hword⟩) hend' hrest⟩
        | cons d lead =>
            refine absurd (fun e he => ?_) hend
            obtain rfl : d = e := Option.some.inj he
            exact hlead d List.mem_cons_self

theorem exists_hasFields (cs : List Char) : ∃ words, HasFields cs words := by
  induction cs with
  | nil => exact ⟨[], .blank (List.forall_mem_nil _)⟩
  | cons c cs ih =>
      obtain ⟨words, h⟩ := ih
      cases hc : isBlank c with
      | true => exact ⟨words, h.cons_blank hc⟩
      | false => exact h.exists_cons hc

theorem hasFields_iff {cs : List Char} {words : List (List Char)} :
    HasFields cs words ↔ fields cs = words := by
  refine ⟨HasFields.fields_eq, ?_⟩
  rintro rfl
  obtain ⟨words, h⟩ := exists_hasFields cs
  rwa [h.fields_eq]

end Text

end HackToolchain
