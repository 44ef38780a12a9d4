import HackToolchain.Proofs.List
import HackToolchain.Text.Lines

/-!
# Text that reads back as it is

A plain line has no blanks and no slash, so nothing is trimmed from it and no comment starts in it:
what it says is the line itself. Lines without line breaks that are each ended by a line feed are
found again by `linesOf`.
-/

namespace HackToolchain

namespace Text

/-- Whether a character neither is blank nor can start a comment. -/
def isPlain (c : Char) : Bool :=
  !isBlank c && c != '/'

theorem splitFirst_of_not_mem {sep : Char} {cs : List Char} (h : sep ∉ cs) (more : List Char) :
    splitFirst (sep :: more) cs = none := by
  induction cs with
  | nil => simp [splitFirst, splitFirstFrom]
  | cons c cs ih =>
      simp only [List.mem_cons, not_or] at h
      have hno : (sep :: more).isPrefixOf (c :: cs) = false := by
        simp [List.isPrefixOf, h.1]
      rw [splitFirst_cons_of_not_occurs hno, ih h.2, Option.map_none]

theorem splitFirst_append_cons {sep : Char} {before : List Char} (h : sep ∉ before)
    (after : List Char) : splitFirst [sep] (before ++ sep :: after) = some (before, after) := by
  induction before with
  | nil =>
      have hyes : [sep].isPrefixOf (sep :: after) = true := by simp [List.isPrefixOf]
      rw [List.nil_append, splitFirst_cons_of_occurs hyes]
      rfl
  | cons b before ih =>
      simp only [List.mem_cons, not_or] at h
      have hno : [sep].isPrefixOf (b :: (before ++ sep :: after)) = false := by
        simp [List.isPrefixOf, h.1]
      rw [List.cons_append, splitFirst_cons_of_not_occurs hno, ih h.2, Option.map_some]

theorem trim_of_forall_not_blank {cs : List Char} (h : ∀ c ∈ cs, isBlank c = false) :
    trim cs = cs := by
  have hdrop (ds : List Char) (hds : ∀ c ∈ ds, isBlank c = false) : ds.dropWhile isBlank = ds := by
    cases ds with
    | nil => rfl
    | cons d ds => simp [List.dropWhile, hds d List.mem_cons_self]
  rw [trim, trimEnd, hdrop cs h, hdrop cs.reverse fun c hc => h c (List.mem_reverse.1 hc),
    List.reverse_reverse]

theorem code_of_forall_isPlain {cs : List Char} (h : ∀ c ∈ cs, isPlain c = true) :
    code cs = cs := by
  have hblank : ∀ c ∈ cs, isBlank c = false := by
    intro c hc
    have hc := h c hc
    simp only [isPlain, Bool.and_eq_true, Bool.not_eq_true'] at hc
    exact hc.1
  have hslash : '/' ∉ cs := fun hmem => absurd (h '/' hmem) (by decide)
  rw [code, beforeComment, splitFirst_of_not_mem hslash]
  exact trim_of_forall_not_blank hblank

@[simp] theorem code_comment (cs : List Char) : code ('/' :: '/' :: cs) = [] := by
  have hyes : ['/', '/'].isPrefixOf ('/' :: '/' :: cs) = true := by simp [List.isPrefixOf]
  rw [code, beforeComment, splitFirst_cons_of_occurs hyes]
  rfl

theorem filter_not_isBlank_of_forall_isPlain {cs : List Char} (h : ∀ c ∈ cs, isPlain c = true) :
    cs.filter (!isBlank ·) = cs := by
  rw [List.filter_eq_self]
  intro c hc
  have hc := h c hc
  simp only [isPlain, Bool.and_eq_true] at hc
  exact hc.1

theorem pieces_of_forall_not {p : Char → Bool} {cs : List Char} (h : ∀ c ∈ cs, p c = false) :
    pieces p cs = [cs] := by
  induction cs with
  | nil => rfl
  | cons c cs ih =>
      rw [pieces_cons, ih fun d hd => h d (List.mem_cons_of_mem _ hd), extendPieces,
        h c List.mem_cons_self]
      rfl

/-- Whether a character is no part of a line ending. -/
def isInline (c : Char) : Bool :=
  c != '\n' && c != '\r'

theorem isInline_of_isPlain {c : Char} (h : isPlain c = true) : isInline c = true := by
  rw [isInline, Bool.and_eq_true, bne_iff_ne, bne_iff_ne]
  constructor
  · rintro rfl
    exact absurd h (by decide)
  · rintro rfl
    exact absurd h (by decide)

/-- Lines without line endings, each ended by a line feed, are found again. -/
theorem linesOf_flatMap_lineFeed {ls : List (List Char)}
    (h : ∀ l ∈ ls, ∀ c ∈ l, isInline c = true) :
    linesOf (ls.flatMap fun l => l ++ ['\n']) = ls := by
  induction ls with
  | nil => rfl
  | cons l ls ih =>
      have hl : ∀ c ∈ l, isInline c = true := h l List.mem_cons_self
      have hpieces : pieces isLineFeed l = [l] := by
        apply pieces_of_forall_not
        intro c hc
        have hc := hl c hc
        simp only [isInline, Bool.and_eq_true, bne_iff_ne] at hc
        simp [isLineFeed, hc.1]
      have hreturn : dropReturn l = l := by
        apply dropReturn_of_getLast?_ne
        intro hlast
        exact absurd (hl '\r' (List.mem_of_getLast? hlast)) (by decide)
      rw [List.flatMap_cons, List.append_assoc, List.singleton_append, linesOf_append_lineFeed,
        hpieces, List.map_singleton, hreturn, ih fun m hm => h m (List.mem_cons_of_mem _ hm)]
      rfl

end Text

end HackToolchain
