import HackToolchain.Proofs.Text.Code

/-!
# Where the comment of a line starts

A comment starts at the first place where two slashes stand next to each other, wherever that is. So
what a line says is determined by its parts: blanks, the text, further blanks, and then nothing or a
comment, with no two slashes next to each other before it. Blanks at the ends of a line do not
change what it says, nor does a comment behind a line, unless the line ends with a slash and has no
comment yet.
-/

namespace HackToolchain

namespace Text

theorem beforeComment_of_slashes {cs : List Char} (h : ['/', '/'] <+: cs) :
    beforeComment cs = [] := by
  cases cs with
  | nil => rfl
  | cons c cs =>
      rw [beforeComment, splitFirst_cons_of_occurs (List.isPrefixOf_iff_prefix.2 h)]

theorem beforeComment_cons {c : Char} {cs : List Char} (h : ¬['/', '/'] <+: c :: cs) :
    beforeComment (c :: cs) = c :: beforeComment cs := by
  have hno : ['/', '/'].isPrefixOf (c :: cs) = false :=
    Bool.eq_false_iff.2 fun hyes => h (List.isPrefixOf_iff_prefix.1 hyes)
  rw [beforeComment, splitFirst_cons_of_not_occurs hno, beforeComment]
  cases splitFirst ['/', '/'] cs <;> rfl

theorem not_slashes_of_ne {c : Char} (h : c ≠ '/') (cs : List Char) : ¬['/', '/'] <+: c :: cs :=
  fun hslashes => h (List.cons_prefix_cons.1 hslashes).1.symm

theorem beforeComment_cons_of_ne {c : Char} (h : c ≠ '/') (cs : List Char) :
    beforeComment (c :: cs) = c :: beforeComment cs :=
  beforeComment_cons (not_slashes_of_ne h cs)

theorem ne_slash_of_isBlank {c : Char} (h : isBlank c = true) : c ≠ '/' := by
  rintro rfl
  exact absurd h (by decide)

/-- No comment starts anywhere in the first part of a text. -/
def NoCommentIn (before rest : List Char) : Prop :=
  ∀ k < before.length, ¬['/', '/'] <+: (before ++ rest).drop k

theorem noCommentIn_cons_iff {c : Char} {before rest : List Char} :
    NoCommentIn (c :: before) rest ↔
      ¬['/', '/'] <+: c :: (before ++ rest) ∧ NoCommentIn before rest := by
  constructor
  · intro h
    exact ⟨h 0 (Nat.succ_pos _), fun k hk => h (k + 1) (Nat.succ_lt_succ hk)⟩
  · rintro ⟨hfirst, hrest⟩ k hk
    cases k with
    | zero => exact hfirst
    | succ k => exact hrest k (Nat.lt_of_succ_lt_succ hk)

/-- The text before the first comment, read off its two parts. -/
theorem beforeComment_append_rest {before rest : List Char} (h : NoCommentIn before rest)
    (hrest : IsRest rest) : beforeComment (before ++ rest) = before := by
  induction before with
  | nil =>
      obtain rfl | ⟨comment, rfl⟩ := hrest
      · rfl
      · exact beforeComment_of_slashes (List.prefix_append ['/', '/'] comment)
  | cons c before ih =>
      obtain ⟨hfirst, hbefore⟩ := noCommentIn_cons_iff.1 h
      rw [List.cons_append, beforeComment_cons hfirst, ih hbefore]

theorem exists_rest (cs : List Char) :
    ∃ rest, cs = beforeComment cs ++ rest ∧ IsRest rest ∧ NoCommentIn (beforeComment cs) rest := by
  induction cs with
  | nil => exact ⟨[], rfl, .inl rfl, fun k hk => absurd hk (Nat.not_lt_zero k)⟩
  | cons c cs ih =>
      by_cases hslashes : ['/', '/'] <+: c :: cs
      · rw [beforeComment_of_slashes hslashes]
        obtain ⟨comment, hcomment⟩ := hslashes
        exact ⟨c :: cs, rfl, .inr ⟨comment, hcomment.symm⟩,
          fun k hk => absurd hk (Nat.not_lt_zero k)⟩
      · obtain ⟨rest, hcs, hrest, hbefore⟩ := ih
        rw [beforeComment_cons hslashes]
        refine ⟨rest, congrArg (c :: ·) hcs, hrest, noCommentIn_cons_iff.2 ⟨?_, hbefore⟩⟩
        rwa [← hcs]

/-- A line says a text that neither begins nor ends with a blank: around it the line has blanks
only, up to its first comment or its end. -/
inductive Says : List Char → List Char → Prop
  | parts {lead said trail rest : List Char} (hlead : ∀ c ∈ lead, isBlank c = true)
      (hsaid : IsTight said) (htrail : ∀ c ∈ trail, isBlank c = true) (hrest : IsRest rest)
      (hfirst : NoCommentIn (lead ++ said ++ trail) rest) :
      Says (lead ++ said ++ trail ++ rest) said

theorem says_iff {line said : List Char} : Says line said ↔ code line = said := by
  constructor
  · rintro ⟨hlead, hsaid, htrail, hrest, hfirst⟩
    rw [code, beforeComment_append_rest hfirst hrest, trim_append_blanks hlead htrail hsaid]
  · rintro rfl
    obtain ⟨rest, hline, hrest, hfirst⟩ := exists_rest line
    obtain ⟨lead, trail, hbefore, hlead, htrail⟩ := exists_of_trim (beforeComment line)
    rw [hbefore] at hline hfirst
    have hsays := Says.parts hlead (isTight_code line) htrail hrest hfirst
    rwa [code, ← hline] at hsays

/-- The comment of a line may have slashes before it. -/
example : Says " a/b // c".toList "a/b".toList :=
  says_iff.2 (by decide)

theorem code_blanks_append {gap : List Char} (h : ∀ c ∈ gap, isBlank c = true)
    (line : List Char) : code (gap ++ line) = code line := by
  induction gap with
  | nil => rfl
  | cons c gap ih =>
      obtain ⟨hc, hgap⟩ := List.forall_mem_cons.1 h
      rw [← ih hgap, List.cons_append, code, code,
        beforeComment_cons_of_ne (ne_slash_of_isBlank hc), trim_cons_blank hc]

theorem code_append_blanks {gap : List Char} (h : ∀ c ∈ gap, isBlank c = true)
    (line : List Char) : code (line ++ gap) = code line := by
  induction gap generalizing line with
  | nil => rw [List.append_nil]
  | cons c gap ih =>
      obtain ⟨hc, hgap⟩ := List.forall_mem_cons.1 h
      rw [← List.singleton_append, ← List.append_assoc, ih hgap, code_append_blank hc]

/-- A line to which a comment can be appended: a slash at its end would become a part of the
comment, unless the line has one already. -/
def TakesComment (line : List Char) : Prop :=
  line.getLast? ≠ some '/' ∨ ['/', '/'] <:+: line

theorem code_append_comment {line : List Char} (h : TakesComment line) (comment : List Char) :
    code (line ++ '/' :: '/' :: comment) = code line := by
  suffices hbefore : beforeComment (line ++ '/' :: '/' :: comment) = beforeComment line by
    rw [code, code, hbefore]
  induction line with
  | nil => exact beforeComment_of_slashes (List.prefix_append ['/', '/'] comment)
  | cons c line ih =>
      by_cases hslashes : ['/', '/'] <+: c :: line
      · rw [beforeComment_of_slashes hslashes,
          beforeComment_of_slashes (hslashes.trans (List.prefix_append _ _))]
      · -- a comment in the line is behind its first character
        have htail : TakesComment line := by
          refine h.imp (fun hlast => ?_) fun hinfix => ?_
          · cases line with
            | nil => simp
            | cons d line => rwa [List.getLast?_cons_cons] at hlast
          · exact (List.infix_cons_iff.1 hinfix).resolve_left hslashes
        have hstart : ¬['/', '/'] <+: c :: (line ++ '/' :: '/' :: comment) := by
          cases line with
          | nil =>
              rcases h with hlast | hinfix
              · exact not_slashes_of_ne (by simpa using hlast) _
              · exact absurd hinfix.length_le (by simp)
          | cons d line => simpa [List.cons_prefix_cons] using hslashes
        rw [List.cons_append, beforeComment_cons hstart, beforeComment_cons hslashes, ih htail]

/-- Blanks put somewhere before the comment of a line open no comment and do away with none. -/
theorem beforeComment_insert {front back rest gap : List Char}
    (hgap : ∀ c ∈ gap, isBlank c = true) (h : beforeComment (front ++ back) = front ++ rest) :
    beforeComment (front ++ (gap ++ back)) = front ++ (gap ++ rest) := by
  induction front with
  | nil =>
      induction gap with
      | nil => exact h
      | cons c gap ih =>
          obtain ⟨hc, hgap⟩ := List.forall_mem_cons.1 hgap
          exact (beforeComment_cons_of_ne (ne_slash_of_isBlank hc) _).trans
            (congrArg (c :: ·) (ih hgap))
  | cons c front ih =>
      rw [List.cons_append, List.cons_append] at h
      have hslashes : ¬['/', '/'] <+: c :: (front ++ back) := fun hslashes => by
        rw [beforeComment_of_slashes hslashes] at h
        cases h
      rw [beforeComment_cons hslashes, List.cons.injEq] at h
      have hstart : ¬['/', '/'] <+: c :: (front ++ (gap ++ back)) := by
        cases front with
        | cons d front => simpa [List.cons_prefix_cons] using hslashes
        | nil =>
            cases gap with
            | nil => exact hslashes
            | cons d gap =>
                have hd := ne_slash_of_isBlank (List.forall_mem_cons.1 hgap).1
                simp [List.cons_prefix_cons, hd.symm]
      rw [List.cons_append, beforeComment_cons hstart, ih h.2, List.cons_append]

/-- The characters of a line before its comment that are no blanks. -/
def bare (line : List Char) : List Char :=
  (beforeComment line).filter (!isBlank ·)

theorem filter_eq_nil_of_blank {gap : List Char} (h : ∀ c ∈ gap, isBlank c = true) :
    gap.filter (!isBlank ·) = [] := by
  rw [List.filter_eq_nil_iff]
  intro c hc
  simp [h c hc]

theorem filter_code (line : List Char) : (code line).filter (!isBlank ·) = bare line := by
  obtain ⟨lead, trail, hbefore, hlead, htrail⟩ := exists_of_trim (beforeComment line)
  rw [bare, hbefore, List.filter_append, List.filter_append, filter_eq_nil_of_blank hlead,
    filter_eq_nil_of_blank htrail, List.nil_append, List.append_nil]
  rfl

/-- What a line says begins with the first character that is no blank. -/
theorem head?_code (line : List Char) : (code line).head? = (bare line).head? := by
  have hhead := (isTight_code line).head
  rw [← filter_code]
  cases hcode : code line with
  | nil => rfl
  | cons c cs =>
      rw [hcode] at hhead
      rw [List.filter_cons_of_pos (by simp [hhead c rfl]), List.head?_cons, List.head?_cons]

/-- Around what a line says there are blanks only, so the blanks in front of it are all that the
line begins with. -/
theorem exists_beforeComment_eq {lead said tail : List Char} (hlead : ∀ c ∈ lead, isBlank c = true)
    (hne : said ≠ []) (h : code (lead ++ said ++ tail) = said) :
    ∃ trail, beforeComment (lead ++ said ++ tail) = lead ++ said ++ trail ∧
      ∀ c ∈ trail, isBlank c = true := by
  obtain ⟨rest, hline, -, -⟩ := exists_rest (lead ++ said ++ tail)
  obtain ⟨lead', trail, hbefore, hlead', htrail⟩ :=
    exists_of_trim (beforeComment (lead ++ said ++ tail))
  rw [← code, h] at hbefore
  obtain ⟨c, cs, rfl⟩ := List.exists_cons_of_ne_nil hne
  have hc : isBlank c = false := by
    have htight := (isTight_code (lead ++ c :: cs ++ tail)).head
    rw [h] at htight
    exact htight c rfl
  have htake {front : List Char} (hfront : ∀ c ∈ front, isBlank c = true) (more : List Char) :
      (front ++ c :: cs ++ more).takeWhile isBlank = front := by
    rw [List.append_assoc, List.takeWhile_append_of_pos hfront, List.cons_append,
      List.takeWhile_cons_of_neg (by simp [hc]), List.append_nil]
  obtain rfl : lead = lead' := by
    rw [← htake hlead tail, hline, hbefore, List.append_assoc _ trail rest, htake hlead']
  exact ⟨trail, hbefore, htrail⟩

end Text

end HackToolchain
