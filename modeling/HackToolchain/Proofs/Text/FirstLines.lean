import HackToolchain.Proofs.Text.Plain

/-!
# The first lines of a text

`firstLines n cs` is the start of a text up to the end of its line number `n`, with all line endings
as they are. Its lines are the first `n` lines of the text. As a line feed ends every line but
perhaps the last one, counting line feeds is enough.
-/

namespace HackToolchain

namespace Text

/-- The start of a text with as many line feeds, or the whole text if it has fewer. -/
def firstLines : Nat → List Char → List Char
  | 0, _ => []
  | _ + 1, [] => []
  | n + 1, c :: cs => c :: firstLines (if isLineFeed c then n else n + 1) cs

theorem firstLines_prefix (n : Nat) (cs : List Char) : firstLines n cs <+: cs := by
  induction cs generalizing n with
  | nil => cases n <;> exact List.prefix_refl []
  | cons c cs ih =>
      cases n with
      | zero => exact List.nil_prefix
      | succ n => exact List.cons_prefix_cons.2 ⟨rfl, ih _⟩

theorem firstLines_succ_append {before : List Char} (h : ∀ c ∈ before, isLineFeed c = false)
    (n : Nat) (after : List Char) :
    firstLines (n + 1) (before ++ '\n' :: after) = before ++ '\n' :: firstLines n after := by
  induction before with
  | nil => rfl
  | cons c before ih =>
      obtain ⟨hc, hbefore⟩ := List.forall_mem_cons.1 h
      rw [List.cons_append, firstLines, hc, List.cons_append]
      exact congrArg (c :: ·) (ih hbefore)

theorem firstLines_succ_of_forall_not {cs : List Char} (h : ∀ c ∈ cs, isLineFeed c = false)
    (n : Nat) : firstLines (n + 1) cs = cs := by
  induction cs with
  | nil => rfl
  | cons c cs ih =>
      obtain ⟨hc, hcs⟩ := List.forall_mem_cons.1 h
      rw [firstLines, hc]
      exact congrArg (c :: ·) (ih hcs)

/-- A text has one line at most, or it is a line that a line feed ends and the text behind that. -/
theorem forall_not_or_exists_lineFeed (cs : List Char) :
    (∀ c ∈ cs, isLineFeed c = false) ∨ ∃ before after, cs = before ++ '\n' :: after ∧
      ∀ c ∈ before, isLineFeed c = false := by
  induction cs with
  | nil => simp
  | cons c cs ih =>
      cases hc : isLineFeed c with
      | true => exact .inr ⟨[], cs, by simp [beq_iff_eq.1 hc], by simp⟩
      | false =>
          rcases ih with hcs | ⟨before, after, rfl, hbefore⟩
          · exact .inl (List.forall_mem_cons.2 ⟨hc, hcs⟩)
          · exact .inr ⟨c :: before, after, rfl, List.forall_mem_cons.2 ⟨hc, hbefore⟩⟩

theorem linesOf_append_line {before : List Char} (h : ∀ c ∈ before, isLineFeed c = false)
    (after : List Char) : linesOf (before ++ '\n' :: after) = dropReturn before :: linesOf after := by
  rw [linesOf_append_lineFeed, pieces_of_forall_not h]
  rfl

theorem linesOf_of_forall_not {cs : List Char} (h : ∀ c ∈ cs, isLineFeed c = false)
    (hne : cs ≠ []) : linesOf cs = [cs] := by
  rw [linesOf, pieces_of_forall_not h]
  simp [hne]

theorem linesOf_firstLines (n : Nat) (cs : List Char) :
    linesOf (firstLines n cs) = (linesOf cs).take n := by
  induction n generalizing cs with
  | zero => rw [firstLines, linesOf_nil, List.take_zero]
  | succ n ih =>
      rcases forall_not_or_exists_lineFeed cs with h | ⟨before, after, rfl, hbefore⟩
      · rw [firstLines_succ_of_forall_not h]
        by_cases hne : cs = []
        · simp [hne]
        · rw [linesOf_of_forall_not h hne, List.take_succ_cons, List.take_nil]
      · rw [firstLines_succ_append hbefore, linesOf_append_line hbefore,
          linesOf_append_line hbefore, ih, List.take_succ_cons]

theorem firstLines_length_linesOf (cs : List Char) : firstLines (linesOf cs).length cs = cs := by
  generalize hn : (linesOf cs).length = n
  induction n generalizing cs with
  | zero =>
      rcases forall_not_or_exists_lineFeed cs with h | ⟨before, after, rfl, hbefore⟩
      · by_cases hne : cs = []
        · rw [hne, firstLines]
        · simp [linesOf_of_forall_not h hne] at hn
      · simp [linesOf_append_line hbefore] at hn
  | succ n ih =>
      rcases forall_not_or_exists_lineFeed cs with h | ⟨before, after, rfl, hbefore⟩
      · exact firstLines_succ_of_forall_not h n
      · rw [linesOf_append_line hbefore, List.length_cons, Nat.succ_inj] at hn
        rw [firstLines_succ_append hbefore, ih after hn]

end Text

end HackToolchain
