import HackToolchain.Proofs.Text.Plain

/-!
# Where a line says what it says

A line consists of blanks, what it says, further blanks and perhaps a comment. `exists_of_code`
finds these parts in a line, and `code_of_parts` puts a line together from such parts. What a line
says neither begins nor ends with a blank.
-/

namespace HackToolchain

namespace Text

/-- A text neither begins nor ends with a blank. -/
structure IsTight (cs : List Char) : Prop where
  head : ∀ c ∈ cs.head?, isBlank c = false
  last : ∀ c ∈ cs.getLast?, isBlank c = false

/-- What comes behind the part of a line that counts: nothing or a comment. -/
def IsRest (cs : List Char) : Prop :=
  cs = [] ∨ ∃ comment, cs = '/' :: '/' :: comment

theorem dropWhile_isBlank_of_head {cs : List Char} (h : ∀ c ∈ cs.head?, isBlank c = false) :
    cs.dropWhile isBlank = cs := by
  cases cs with
  | nil => rfl
  | cons c cs => simp [h c rfl]

theorem trim_of_isTight {cs : List Char} (h : IsTight cs) : trim cs = cs := by
  have hlast : ∀ c ∈ cs.reverse.head?, isBlank c = false := by
    rw [List.head?_reverse]
    exact h.last
  rw [trim, trimEnd, dropWhile_isBlank_of_head h.head, dropWhile_isBlank_of_head hlast,
    List.reverse_reverse]

theorem head_dropWhile_isBlank (cs : List Char) :
    ∀ c ∈ (cs.dropWhile isBlank).head?, isBlank c = false := by
  intro c hc
  have hnot := List.head?_dropWhile_not isBlank cs
  rw [Option.mem_def.1 hc] at hnot
  simpa using hnot

theorem trim_append_blanks {lead trail : List Char} (hlead : ∀ c ∈ lead, isBlank c = true)
    (htrail : ∀ c ∈ trail, isBlank c = true) {cs : List Char} (h : IsTight cs) :
    trim (lead ++ cs ++ trail) = cs := by
  rw [List.append_assoc, trim, List.dropWhile_append_of_pos hlead]
  cases cs with
  | nil =>
      have hdrop : (trail ++ []).dropWhile isBlank = [] := List.dropWhile_append_of_pos htrail
      rw [List.append_nil] at hdrop
      rw [List.nil_append, hdrop, trimEnd_nil]
  | cons c cs =>
      have hhead : ∀ d ∈ (c :: cs ++ trail).head?, isBlank d = false := h.head
      have htrim := trim_of_isTight h
      rw [trim, dropWhile_isBlank_of_head h.head] at htrim
      rw [dropWhile_isBlank_of_head hhead, trimEnd, List.reverse_append,
        List.dropWhile_append_of_pos fun d hd => htrail d (List.mem_reverse.1 hd)]
      exact htrim

theorem exists_of_trimEnd (cs : List Char) :
    ∃ trail, cs = trimEnd cs ++ trail ∧ ∀ c ∈ trail, isBlank c = true := by
  refine ⟨(cs.reverse.takeWhile isBlank).reverse, ?_,
    fun c hc => List.all_eq_true.1 List.all_takeWhile c (List.mem_reverse.1 hc)⟩
  rw [trimEnd, ← List.reverse_append, List.takeWhile_append_dropWhile, List.reverse_reverse]

theorem exists_of_trim (cs : List Char) :
    ∃ lead trail, cs = lead ++ trim cs ++ trail ∧ (∀ c ∈ lead, isBlank c = true) ∧
      ∀ c ∈ trail, isBlank c = true := by
  obtain ⟨trail, hcs, htrail⟩ := exists_of_trimEnd (cs.dropWhile isBlank)
  refine ⟨cs.takeWhile isBlank, trail, ?_,
    fun c hc => List.all_eq_true.1 List.all_takeWhile c hc, htrail⟩
  rw [List.append_assoc, trim, ← hcs, List.takeWhile_append_dropWhile]

theorem isTight_trim (cs : List Char) : IsTight (trim cs) := by
  refine ⟨fun c hc => ?_, fun c hc => ?_⟩
  · -- what is trimmed at the end keeps its front
    obtain ⟨trail, hcs, -⟩ := exists_of_trimEnd (cs.dropWhile isBlank)
    apply head_dropWhile_isBlank cs
    rw [hcs, Option.mem_def, List.head?_append, ← trim, Option.mem_def.1 hc]
    rfl
  · rw [trim, trimEnd, List.getLast?_reverse] at hc
    exact head_dropWhile_isBlank _ c hc

theorem not_mem_slash_of_blank {cs : List Char} (h : ∀ c ∈ cs, isBlank c = true) : '/' ∉ cs :=
  fun hmem => absurd (h '/' hmem) (by decide)

/-- What comes before a comment, in a line that has no slash before it. -/
theorem beforeComment_append {before rest : List Char} (h : '/' ∉ before) (hrest : IsRest rest) :
    beforeComment (before ++ rest) = before := by
  obtain rfl | ⟨comment, rfl⟩ := hrest
  · rw [List.append_nil, beforeComment, splitFirst_of_not_mem h]
  · suffices hsplit : splitFirst ['/', '/'] (before ++ '/' :: '/' :: comment) =
        some (before, comment) by
      rw [beforeComment, hsplit]
    induction before with
    | nil => exact splitFirst_cons_of_occurs (by simp [List.isPrefixOf])
    | cons b before ih =>
        rw [List.mem_cons, not_or] at h
        have hno : ['/', '/'].isPrefixOf (b :: (before ++ '/' :: '/' :: comment)) = false := by
          simp [List.isPrefixOf, h.1]
        rw [List.cons_append, splitFirst_cons_of_not_occurs hno, ih h.2, Option.map_some]

/-- What a line says can be read off the parts that the line is put together from. -/
theorem code_of_parts {lead cs trail rest : List Char} (hlead : ∀ c ∈ lead, isBlank c = true)
    (hcs : '/' ∉ cs) (htight : IsTight cs) (htrail : ∀ c ∈ trail, isBlank c = true)
    (hrest : IsRest rest) : code (lead ++ cs ++ trail ++ rest) = cs := by
  have hslash : '/' ∉ lead ++ cs ++ trail := by
    rw [List.mem_append, List.mem_append, not_or, not_or]
    exact ⟨⟨not_mem_slash_of_blank hlead, hcs⟩, not_mem_slash_of_blank htrail⟩
  rw [code, beforeComment_append hslash hrest, trim_append_blanks hlead htrail htight]

/-- A line has what it says between blanks, and then nothing or a comment. -/
theorem exists_of_code (cs : List Char) :
    ∃ lead trail rest, cs = lead ++ code cs ++ trail ++ rest ∧ (∀ c ∈ lead, isBlank c = true) ∧
      (∀ c ∈ trail, isBlank c = true) ∧ IsRest rest := by
  obtain ⟨rest, hcs, hrest⟩ : ∃ rest, cs = beforeComment cs ++ rest ∧ IsRest rest := by
    rw [beforeComment]
    cases hsplit : splitFirst ['/', '/'] cs with
    | none => exact ⟨[], (List.append_nil cs).symm, .inl rfl⟩
    | some parts =>
        obtain ⟨before, comment⟩ := parts
        refine ⟨'/' :: '/' :: comment, ?_, .inr ⟨comment, rfl⟩⟩
        simpa using eq_append_of_splitFirst hsplit
  obtain ⟨lead, trail, hbefore, hlead, htrail⟩ := exists_of_trim (beforeComment cs)
  refine ⟨lead, trail, rest, ?_, hlead, htrail, hrest⟩
  rw [code, ← hbefore]
  exact hcs

theorem isTight_code (cs : List Char) : IsTight (code cs) :=
  isTight_trim _

/-- A character that is no slash opens no comment at the end of a line. -/
theorem splitFirst_append_singleton {c : Char} (h : c ≠ '/') (cs : List Char) :
    splitFirst ['/', '/'] (cs ++ [c]) =
      (splitFirst ['/', '/'] cs).map fun parts => (parts.1, parts.2 ++ [c]) := by
  induction cs with
  | nil => simp [splitFirst, splitFirstFrom, List.isPrefixOf]
  | cons b cs ih =>
      cases hp : ['/', '/'].isPrefixOf (b :: cs) with
      | true =>
          have hslashes := List.isPrefixOf_iff_prefix.1 hp
          have hp' : ['/', '/'].isPrefixOf (b :: (cs ++ [c])) = true :=
            List.isPrefixOf_iff_prefix.2 (hslashes.trans (List.prefix_append (b :: cs) [c]))
          rw [List.cons_append, splitFirst_cons_of_occurs hp', splitFirst_cons_of_occurs hp,
            ← List.cons_append, List.drop_append_of_le_length hslashes.length_le]
          rfl
      | false =>
          have hp' : ['/', '/'].isPrefixOf (b :: (cs ++ [c])) = false := by
            cases cs with
            | nil => simp [List.isPrefixOf, h.symm]
            | cons d cs => simpa [List.isPrefixOf] using hp
          rw [List.cons_append, splitFirst_cons_of_not_occurs hp', ih,
            splitFirst_cons_of_not_occurs hp, Option.map_map, Option.map_map]
          rfl

theorem trim_append_blank {c : Char} (h : isBlank c = true) (cs : List Char) :
    trim (cs ++ [c]) = trim cs := by
  obtain ⟨lead, trail, hcs, hlead, htrail⟩ := exists_of_trim cs
  have htrail' : ∀ d ∈ trail ++ [c], isBlank d = true :=
    List.forall_mem_append.2 ⟨htrail, List.forall_mem_singleton.2 h⟩
  have happend := trim_append_blanks hlead htrail' (isTight_trim cs)
  rwa [← List.append_assoc, ← hcs] at happend

theorem trim_dropReturn (cs : List Char) : trim (dropReturn cs) = trim cs := by
  rcases List.eq_nil_or_concat cs with rfl | ⟨front, last, rfl⟩
  · rfl
  · by_cases h : last = '\r'
    · rw [h, List.concat_eq_append, dropReturn_append_return, trim_append_blank (by decide)]
    · rw [dropReturn_of_getLast?_ne (by simpa using h)]

theorem code_append_blank {c : Char} (h : isBlank c = true) (cs : List Char) :
    code (cs ++ [c]) = code cs := by
  have hc : c ≠ '/' := by
    rintro rfl
    exact absurd h (by decide)
  rw [code, code, beforeComment, beforeComment, splitFirst_append_singleton hc]
  cases splitFirst ['/', '/'] cs with
  | some parts => rfl
  | none => exact trim_append_blank h cs

theorem code_dropReturn (cs : List Char) : code (dropReturn cs) = code cs := by
  rcases List.eq_nil_or_concat cs with rfl | ⟨front, last, rfl⟩
  · rfl
  · by_cases h : last = '\r'
    · rw [h, List.concat_eq_append, dropReturn_append_return, code_append_blank (by decide)]
    · rw [dropReturn_of_getLast?_ne (by simpa using h)]

end Text

end HackToolchain
