import HackToolchain.Proofs.Text.Code
import HackToolchain.Proofs.Text.Pieces

/-!
# Tidy texts

`tidy text` drops the blank lines of a text and the blanks around each line, and ends every line by a
single line feed. A text is tidy when nothing has to be changed for that: these are the texts that
`tidy` makes, and the texts that it leaves as they are.
-/

namespace HackToolchain

namespace Text

/-- What the lines of a text hold between blanks, without the blank lines. -/
def tidyLines (cs : List Char) : List (List Char) :=
  ((pieces isLineFeed cs).map trim).filter (!·.isEmpty)

/-- The text without blank lines and blanks around a line, and with a line feed behind every line. -/
def tidy (text : String) : String :=
  String.ofList ((tidyLines text.toList).flatMap fun line => line ++ ['\n'])

/-- A line that is not blank, with no blank at its ends. -/
structure IsTidyLine (cs : List Char) : Prop where
  ne_nil : cs ≠ []
  tight : IsTight cs
  inline : '\n' ∉ cs

/-- Every line is tidy and ended by a line feed. -/
def IsTidy (text : String) : Prop :=
  ∃ ls : List (List Char), (∀ line ∈ ls, IsTidyLine line) ∧
    text.toList = ls.flatMap fun line => line ++ ['\n']

theorem mem_of_mem_trim {cs : List Char} {c : Char} (h : c ∈ trim cs) : c ∈ cs := by
  obtain ⟨lead, trail, hcs, -⟩ := exists_of_trim cs
  rw [hcs]
  exact List.mem_append_left _ (List.mem_append_right _ h)

theorem isTidyLine_of_mem_tidyLines {cs line : List Char} (h : line ∈ tidyLines cs) :
    IsTidyLine line := by
  obtain ⟨hmem, hne⟩ := List.mem_filter.1 h
  obtain ⟨part, hpart, rfl⟩ := List.mem_map.1 hmem
  exact ⟨by simpa using hne, isTight_trim part,
    fun hfeed => absurd (not_sep_of_mem_pieces hpart (mem_of_mem_trim hfeed)) (by decide)⟩

/-- Line endings with a carriage return are as good as those without. -/
theorem tidyLines_eq (cs : List Char) :
    tidyLines cs = ((linesOf cs).map trim).filter (!·.isEmpty) := by
  have hended (parts : List (List Char)) :
      (parts.map dropReturn).map trim = parts.map trim := by
    simp [trim_dropReturn]
  have hne := pieces_ne_nil isLineFeed cs
  rw [tidyLines, linesOf, List.map_append, hended, List.getLast?_eq_some_getLast hne]
  conv_lhs => rw [← List.dropLast_append_getLast hne]
  rw [List.map_append, List.filter_append, List.filter_append]
  congr 1
  cases hlast : (pieces isLineFeed cs).getLast hne with
  | nil => rfl
  | cons c last => rfl

theorem tidyLines_append_line {before : List Char} (h : '\n' ∉ before) (after : List Char) :
    tidyLines (before ++ '\n' :: after) =
      [trim before].filter (!·.isEmpty) ++ tidyLines after := by
  have hpieces : pieces isLineFeed before = [before] := by
    refine pieces_of_forall_not fun c hc => beq_false_of_ne fun heq => h ?_
    exact heq ▸ hc
  rw [tidyLines, pieces_append_sep (show isLineFeed '\n' = true from rfl), hpieces, List.map_append,
    List.filter_append]
  rfl

theorem tidyLines_flatMap {ls : List (List Char)} (h : ∀ line ∈ ls, IsTidyLine line) :
    tidyLines (ls.flatMap fun line => line ++ ['\n']) = ls := by
  induction ls with
  | nil => rfl
  | cons line ls ih =>
      obtain ⟨hline, hls⟩ := List.forall_mem_cons.1 h
      have hkeep : [trim line].filter (!·.isEmpty) = [line] := by
        simp [trim_of_isTight hline.tight, hline.ne_nil]
      rw [List.flatMap_cons, List.append_assoc, List.singleton_append,
        tidyLines_append_line hline.inline, hkeep, ih hls]
      rfl

theorem isTidy_tidy (text : String) : IsTidy (tidy text) :=
  ⟨tidyLines text.toList, fun _ => isTidyLine_of_mem_tidyLines, String.toList_ofList⟩

theorem tidy_eq_self_iff {text : String} : tidy text = text ↔ IsTidy text := by
  constructor
  · intro h
    rw [← h]
    exact isTidy_tidy text
  · rintro ⟨ls, hls, htext⟩
    rw [tidy, htext, tidyLines_flatMap hls, ← htext, String.ofList_toList]

end Text

end HackToolchain
