import HackToolchain.Proofs.MachineCode.Digits
import HackToolchain.Proofs.Text.Scan
import HackToolchain.Proofs.Text.Tidy

/-!
# Machine code and its text

A text holds a program when its lines, trimmed and without the blank ones, are the digits of the words
of the program. So the text of a program is read back, a text is tidied by reading it and writing the
program again, and two programs never have the same text.
-/

namespace HackToolchain

open Text (tidy tidyLines IsTidy)

theorem scanLines_readBinary_iff {first : Nat} {ls : List String} {ws : List Word} :
    ((Text.scanLines Word.readBinary first ls).fault? = none ∧
      (Text.scanLines Word.readBinary first ls).items.map (·.value) = ws) ↔
    ((ls.map String.toList).map Text.trim).filter (!·.isEmpty) = ws.map Word.binaryDigits := by
  induction ls generalizing first ws with
  | nil => simp [Text.Scan.empty, eq_comm]
  | cons line ls ih =>
      rw [Text.scanLines_cons, List.map_cons, List.map_cons]
      cases hread : Word.readBinary line with
      | error fault =>
          have hne : Text.trim line.toList ≠ [] := fun h => by
            simp [Word.readBinary_eq_ok_none_iff.2 h] at hread
          have hno (w : Word) : Text.trim line.toList ≠ w.binaryDigits := fun h => by
            simp [Word.readBinary_eq_ok_some_iff.2 h] at hread
          cases ws <;> simp [Text.Scan.prepend, hne, hno]
      | ok found =>
          cases found with
          | none =>
              rw [Word.readBinary_eq_ok_none_iff.1 hread]
              exact ih
          | some w =>
              rw [Word.readBinary_eq_ok_some_iff.1 hread, List.filter_cons_of_pos rfl]
              cases ws with
              | nil => simp [Text.Scan.prepend]
              | cons v ws =>
                  have htail := @ih (first + 1) ws
                  simp only [Text.Scan.prepend, List.map_cons, List.cons.injEq,
                    Word.binaryDigits_injective.eq_iff, ← htail]
                  exact and_left_comm

namespace MachineCode

theorem toList_toText (code : MachineCode) :
    code.toText.toList =
      (code.words.toList.map Word.binaryDigits).flatMap fun line => line ++ ['\n'] := by
  rw [toText, String.toList_ofList, List.flatMap_map]

theorem isTidyLine_of_mem_digits {code : MachineCode} {line : List Char}
    (h : line ∈ code.words.toList.map Word.binaryDigits) : Text.IsTidyLine line := by
  obtain ⟨w, -, rfl⟩ := List.mem_map.1 h
  refine ⟨fun hnil => ?_, w.isTight_binaryDigits, fun hfeed => ?_⟩
  · simpa using congrArg List.length hnil
  · exact absurd (Word.isBinaryDigit_of_mem hfeed) (by decide)

/-- A text holds a program when its tidied lines are the digits of the words. -/
theorem ofText_eq_ok_iff {text : String} {code : MachineCode} :
    ofText text = .ok code ↔
      tidyLines text.toList = code.words.toList.map Word.binaryDigits := by
  have hlines : (Text.lines text).map String.toList = Text.linesOf text.toList := by
    simp [Text.lines, Function.comp_def]
  rw [Text.tidyLines_eq, ← hlines, ← @scanLines_readBinary_iff 1, ← Text.scan, ofText]
  generalize Text.scan Word.readBinary text = found
  obtain ⟨items, fault?⟩ := found
  obtain ⟨⟨words⟩⟩ := code
  cases fault? <;> simp [Text.Scan.toExcept, Except.map]

theorem ofText_toText (code : MachineCode) : ofText code.toText = .ok code := by
  rw [ofText_eq_ok_iff, toList_toText]
  exact Text.tidyLines_flatMap fun _ => isTidyLine_of_mem_digits

/-- Writing a program that was read tidies its text. -/
theorem toText_of_ofText {text : String} {code : MachineCode} (h : ofText text = .ok code) :
    code.toText = tidy text := by
  rw [← String.toList_inj, toList_toText, ← ofText_eq_ok_iff.1 h, tidy, String.toList_ofList]

theorem isTidy_toText (code : MachineCode) : IsTidy code.toText :=
  ⟨_, fun _ => isTidyLine_of_mem_digits, toList_toText code⟩

end MachineCode

open MachineCode

/-- The text of a program is read back as the program, so that different programs have different
texts. Reading a text and writing the program again drops blank lines and the blanks around a line and
ends every line by one line feed; the text is the same again exactly when it was already so. -/
theorem binary_text_is_canonical :
    (∀ code, ofText code.toText = .ok code) ∧
    (∀ text code, ofText text = .ok code → code.toText = tidy text) ∧
    Function.Injective toText ∧
    ∀ text, (ofText text).map toText = .ok text ↔ (∃ code, ofText text = .ok code) ∧ IsTidy text := by
  refine ⟨ofText_toText, fun _ _ => toText_of_ofText,
    fun code other h => ?_, fun text => ⟨fun h => ?_, fun ⟨⟨code, hcode⟩, htidy⟩ => ?_⟩⟩
  · rw [← Except.ok.injEq (ε := Text.Numbered BinaryFault), ← ofText_toText code, h, ofText_toText]
  · cases hcode : ofText text with
    | error fault => simp [hcode, Except.map] at h
    | ok code =>
        obtain rfl : code.toText = text := by simpa [hcode, Except.map] using h
        exact ⟨⟨code, rfl⟩, isTidy_toText code⟩
  · rw [hcode, Except.map, toText_of_ofText hcode, Text.tidy_eq_self_iff.2 htidy]

/-- Blank lines, blanks around a word, a carriage return and a missing line feed at the end are tidied
away. -/
theorem binary_text_is_canonical_two_words :
    ofText "\n 0000000000000111\r\n\t\n1110101010000111" = .ok ⟨#[7, 60039]⟩ ∧
      (MachineCode.mk #[7, 60039]).toText =
        tidy "\n 0000000000000111\r\n\t\n1110101010000111" := by
  have hcode : ofText "\n 0000000000000111\r\n\t\n1110101010000111" = .ok ⟨#[7, 60039]⟩ := by
    decide +kernel
  exact ⟨hcode, binary_text_is_canonical.2.1 _ _ hcode⟩

end HackToolchain
