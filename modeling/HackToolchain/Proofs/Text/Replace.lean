import HackToolchain.Proofs.Text.Code
import HackToolchain.Proofs.Text.Pieces

/-!
# Lines that say something else

`replaceCode g` puts another text in the place of what a line says and keeps the blanks and the
comment around it. `mapLines` changes the lines of a text and keeps the line feeds between them. If
the new texts are plain then the lines say just that, in the same places.
-/

namespace HackToolchain

namespace Text

/-- Puts `g` of what a line says in its place. -/
def replaceCode (g : List Char → List Char) (line : List Char) : List Char :=
  line.takeWhile isBlank ++ g (code line) ++ (line.dropWhile isBlank).drop (code line).length

/-- Changes what stands between the line feeds of a text. -/
def mapLines (f : List Char → List Char) (cs : List Char) : List Char :=
  ['\n'].intercalate ((pieces isLineFeed cs).map f)

/-- A text is left as it is, or a plain text comes in its place. Nothing is left out or put in. -/
structure IsReplacement (g : List Char → List Char) : Prop where
  plain : ∀ cs, g cs = cs ∨ ∀ c ∈ g cs, isPlain c = true
  nil_iff : ∀ cs, g cs = [] ↔ cs = []

/-- A replacement changes a line between the blanks around what the line says. -/
theorem exists_of_replaceCode {g : List Char → List Char} (hnil : g [] = []) (line : List Char) :
    ∃ lead trail rest, line = lead ++ code line ++ trail ++ rest ∧
      replaceCode g line = lead ++ g (code line) ++ trail ++ rest ∧
      (∀ c ∈ lead, isBlank c = true) ∧ (∀ c ∈ trail, isBlank c = true) ∧ IsRest rest := by
  obtain ⟨lead, trail, rest, hline, hlead, htrail, hrest⟩ := exists_of_code line
  refine ⟨lead, trail, rest, hline, ?_, hlead, htrail, hrest⟩
  rw [replaceCode]
  cases hcode : code line with
  | nil =>
      -- a line that says nothing stays as it is, wherever it is cut
      rw [hcode, List.append_nil] at hline
      rw [hnil, List.append_nil, List.append_nil, ← hline, List.length_nil, List.drop_zero,
        List.takeWhile_append_dropWhile]
  | cons c cs =>
      have hhead := (isTight_code line).head c (by rw [hcode]; rfl)
      have hsplit : line = lead ++ c :: (cs ++ trail ++ rest) := by
        rw [hcode] at hline
        simpa using hline
      have hblank : line.takeWhile isBlank = lead := by
        rw [hsplit, List.takeWhile_append_of_pos hlead]
        simp [hhead]
      have hothers : line.dropWhile isBlank = c :: (cs ++ trail ++ rest) := by
        rw [hsplit, List.dropWhile_append_of_pos hlead]
        simp [hhead]
      rw [hblank, hothers]
      simp

namespace IsReplacement

variable {g : List Char → List Char} (h : IsReplacement g)
include h

theorem nil : g [] = [] :=
  (h.nil_iff []).2 rfl

theorem code_replaceCode (line : List Char) : code (replaceCode g line) = g (code line) := by
  obtain ⟨lead, trail, rest, hline, hreplace, hlead, htrail, hrest⟩ :=
    exists_of_replaceCode h.nil line
  rcases h.plain (code line) with hsame | hplain
  -- what is left as it is may have a slash, but then the whole line is left as it is
  · rw [hreplace, hsame, ← hline]
  · have hslash : '/' ∉ g (code line) := fun hmem => absurd (hplain '/' hmem) (by decide)
    have hblank {c : Char} (hc : c ∈ g (code line)) : isBlank c = false := by
      have hc := hplain c hc
      simp only [isPlain, Bool.and_eq_true, Bool.not_eq_true'] at hc
      exact hc.1
    rw [hreplace]
    exact code_of_parts hlead hslash
      ⟨fun c hc => hblank (List.mem_of_mem_head? hc), fun c hc => hblank (List.mem_of_getLast? hc)⟩
      htrail hrest

theorem not_lineFeed_of_mem_replaceCode {line : List Char}
    (hline : ∀ c ∈ line, isLineFeed c = false) {c : Char} (hc : c ∈ replaceCode g line) :
    isLineFeed c = false := by
  obtain ⟨lead, trail, rest, hparts, hreplace, -⟩ := exists_of_replaceCode h.nil line
  have hkeep : ∀ d, d ∈ lead ∨ d ∈ code line ∨ d ∈ trail ∨ d ∈ rest → isLineFeed d = false := by
    intro d hd
    apply hline
    rw [hparts]
    simpa [or_assoc] using hd
  have hc : c ∈ lead ∨ c ∈ g (code line) ∨ c ∈ trail ∨ c ∈ rest := by
    rw [hreplace] at hc
    simpa [or_assoc] using hc
  rcases hc with hc | hc | hc
  · exact hkeep c (.inl hc)
  · rcases h.plain (code line) with hsame | hplain
    · exact hkeep c (.inr (.inl (hsame ▸ hc)))
    · have hinline := isInline_of_isPlain (hplain c hc)
      simp only [isInline, Bool.and_eq_true, bne_iff_ne] at hinline
      simp [isLineFeed, hinline.1]
  · exact hkeep c (.inr (.inr hc))

theorem isEmpty_replaceCode (line : List Char) : (replaceCode g line).isEmpty = line.isEmpty := by
  obtain ⟨lead, trail, rest, hline, hreplace, -⟩ := exists_of_replaceCode h.nil line
  rw [Bool.eq_iff_iff, List.isEmpty_iff, List.isEmpty_iff, hreplace]
  conv_rhs => rw [hline]
  simp only [List.append_eq_nil_iff, h.nil_iff]

theorem map_code_linesOf (cs : List Char) :
    (linesOf (mapLines (replaceCode g) cs)).map code = (linesOf cs).map fun l => g (code l) := by
  have hpieces : pieces isLineFeed (mapLines (replaceCode g) cs) =
      (pieces isLineFeed cs).map (replaceCode g) := by
    refine pieces_intercalate rfl (by simpa using pieces_ne_nil isLineFeed cs) fun part hpart c hc => ?_
    obtain ⟨line, hline, rfl⟩ := List.mem_map.1 hpart
    exact h.not_lineFeed_of_mem_replaceCode (fun d hd => not_sep_of_mem_pieces hline hd) hc
  have hended : (((pieces isLineFeed cs).dropLast.map (replaceCode g)).map dropReturn).map code =
      ((pieces isLineFeed cs).dropLast.map dropReturn).map fun l => g (code l) := by
    simp [Function.comp_def, code_dropReturn, h.code_replaceCode]
  rw [linesOf, linesOf, hpieces, ← List.map_dropLast, List.map_append, List.map_append, hended,
    List.getLast?_map]
  congr 1
  cases (pieces isLineFeed cs).getLast? with
  | none => rfl
  | some last =>
      cases hlast : last.isEmpty <;>
        simp [h.isEmpty_replaceCode, h.code_replaceCode, hlast]

end IsReplacement

end Text

end HackToolchain
