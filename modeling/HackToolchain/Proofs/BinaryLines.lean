import HackToolchain.Proofs.BinaryText
import Mathlib.Data.Nat.Digits.Lemmas

/-!
# The lines of a binary text

What a line of binary text holds between blanks is nothing, the sixteen digits of a word, or faulty.
A text is read exactly if no line is faulty, and then its words are those of the lines in order.
Otherwise the first faulty line says what is wrong: its width, whatever its characters are, or else
its first character that is no digit.
-/

namespace HackToolchain

namespace Text

/-- A line holds a text that neither begins nor ends with a blank: around it are blanks only. -/
inductive Holds : List Char → List Char → Prop
  | between {lead said trail : List Char} (hlead : ∀ c ∈ lead, isBlank c = true)
      (hsaid : IsTight said) (htrail : ∀ c ∈ trail, isBlank c = true) :
      Holds (lead ++ said ++ trail) said

theorem holds_iff {line said : List Char} : Holds line said ↔ trim line = said := by
  constructor
  · rintro ⟨hlead, hsaid, htrail⟩
    exact trim_append_blanks hlead htrail hsaid
  · rintro rfl
    obtain ⟨lead, trail, hline, hlead, htrail⟩ := exists_of_trim line
    have hholds := Holds.between hlead (isTight_trim line) htrail
    rwa [← hline] at hholds

end Text

namespace Word

def digitValue (c : Char) : Nat :=
  if c = '1' then 1 else 0

theorem digitValue_lt (c : Char) : digitValue c < 2 := by
  unfold digitValue
  split <;> decide

theorem ofDigits_digitValue_lt (cs : List Char) :
    Nat.ofDigits 2 (cs.map digitValue) < 2 ^ cs.length := by
  have hsmall : ∀ digit ∈ cs.map digitValue, digit < 2 :=
    List.forall_mem_map.2 fun c _ => digitValue_lt c
  have hpow := Nat.ofDigits_lt_base_pow_length (by decide) hsmall
  rwa [List.length_map] at hpow

structure IsDigits (cs : List Char) : Prop where
  length_eq : cs.length = 16
  digits : ∀ c ∈ cs, c = '0' ∨ c = '1'

/-- Sixteen binary digits and the word that they denote, the most significant digit first. -/
structure Denotes (cs : List Char) (w : Word) : Prop extends IsDigits cs where
  value_eq : w.toNat = Nat.ofDigits 2 (cs.reverse.map digitValue)

/-- What is wrong with a line that holds neither nothing nor sixteen binary digits. -/
inductive IsFaulty (cs : List Char) : BinaryFault → Prop
  | width (hne : cs ≠ []) (hlength : cs.length ≠ 16) : IsFaulty cs (.wrongWidth cs.length)
  | digit {before after : List Char} {c : Char} (hlength : cs.length = 16)
      (hcs : cs = before ++ c :: after) (hbefore : ∀ b ∈ before, b = '0' ∨ b = '1')
      (hc : ¬(c = '0' ∨ c = '1')) : IsFaulty cs (.notBinary c)

/-- Without overflow, a digit is added to twice the number before it. -/
theorem toNat_appendDigit (w : Word) {digit : Nat} (hdigit : digit < 2) (hw : w.toNat < 2 ^ 15) :
    (w <<< 1 ||| .ofNat digit).toNat = digit + 2 * w.toNat := by
  have hshift : (w <<< 1).toNat = w.toNat <<< 1 := by
    rw [UInt16.toNat_shiftLeft, show (1 : Word).toNat % 16 = 1 from rfl, Nat.shiftLeft_eq]
    exact Nat.mod_eq_of_lt (by omega)
  rw [UInt16.toNat_or, hshift, UInt16.toNat_ofNat_of_lt' (Nat.lt_trans hdigit (by decide)),
    ← Nat.shiftLeft_add_eq_or_of_lt (by simpa using hdigit), Nat.shiftLeft_eq]
  omega

/-- As many digits as fit into a word are read as the number that they denote. -/
theorem toNat_ofBinaryDigits {cs : List Char} (h : cs.length ≤ 16) :
    (ofBinaryDigits cs).toNat = Nat.ofDigits 2 (cs.reverse.map digitValue) := by
  induction cs using List.reverseRecOn with
  | nil => rfl
  | append_singleton cs c ih =>
      rw [List.length_append, List.length_singleton] at h
      have hcs := ih (Nat.le_of_succ_le h)
      have hlt : (ofBinaryDigits cs).toNat < 2 ^ 15 := by
        have hpow := ofDigits_digitValue_lt cs.reverse
        rw [List.length_reverse] at hpow
        rw [hcs]
        exact Nat.lt_of_lt_of_le hpow (Nat.pow_le_pow_right (by decide) (Nat.le_of_succ_le_succ h))
      have hstep : ofBinaryDigits (cs ++ [c]) =
          ofBinaryDigits cs <<< 1 ||| .ofNat (digitValue c) := by
        rw [ofBinaryDigits, List.foldl_append]
        by_cases hc : c = '1' <;> simp [digitValue, hc, ofBinaryDigits]
      rw [hstep, toNat_appendDigit _ (digitValue_lt c) hlt, hcs, List.reverse_append,
        List.reverse_singleton, List.singleton_append, List.map_cons, Nat.ofDigits_cons]

theorem denotes_iff {cs : List Char} {w : Word} : Denotes cs w ↔ cs = w.binaryDigits := by
  constructor
  · rintro ⟨⟨hlength, hdigits⟩, hvalue⟩
    have hword : ofBinaryDigits cs = w := by
      rw [← UInt16.toNat_inj, toNat_ofBinaryDigits (Nat.le_of_eq hlength), hvalue]
    rw [← hword, binaryDigits_ofBinaryDigits hlength fun c hc => isBinaryDigit_iff.2 (hdigits c hc)]
  · rintro rfl
    refine ⟨⟨w.length_binaryDigits, fun c hc => isBinaryDigit_iff.1 (isBinaryDigit_of_mem hc)⟩, ?_⟩
    rw [← toNat_ofBinaryDigits (Nat.le_of_eq w.length_binaryDigits), ofBinaryDigits_binaryDigits]

theorem not_isBinaryDigit_iff {c : Char} : (!isBinaryDigit c) = true ↔ ¬(c = '0' ∨ c = '1') := by
  rw [Bool.not_eq_true', ← isBinaryDigit_iff, Bool.not_eq_true]

/-- The first character that is no digit, found by looking for it. -/
theorem isFaulty_iff_of_length {cs : List Char} (h : cs.length = 16) {fault : BinaryFault} :
    IsFaulty cs fault ↔
      ∃ c, cs.find? (!isBinaryDigit ·) = some c ∧ fault = .notBinary c := by
  constructor
  · rintro (⟨-, hlength⟩ | @⟨before, after, c, -, hcs, hbefore, hc⟩)
    · exact absurd h hlength
    · refine ⟨c, List.find?_eq_some_iff_append.2 ⟨not_isBinaryDigit_iff.2 hc, before, after, hcs,
        fun b hb => ?_⟩, rfl⟩
      rw [Bool.not_not, isBinaryDigit_iff]
      exact hbefore b hb
  · rintro ⟨c, hfind, rfl⟩
    obtain ⟨hc, before, after, hcs, hbefore⟩ := List.find?_eq_some_iff_append.1 hfind
    refine .digit h hcs (fun b hb => ?_) (not_isBinaryDigit_iff.1 hc)
    have hdigit := hbefore b hb
    rwa [Bool.not_not, isBinaryDigit_iff] at hdigit

theorem forall₂_denotes_iff {ls : List (List Char)} {ws : List Word} :
    List.Forall₂ Denotes ls ws ↔ ls = ws.map binaryDigits := by
  have hdenotes : Denotes = fun cs w => cs = w.binaryDigits := by
    funext cs w
    exact propext denotes_iff
  rw [hdenotes, ← List.forall₂_map_right_iff, List.forall₂_eq_eq_eq]

theorem readBinary_eq_error_iff {line : String} {fault : BinaryFault} :
    readBinary line = .error fault ↔ IsFaulty (Text.trim line.toList) fault := by
  unfold readBinary
  generalize Text.trim line.toList = cs
  by_cases hnil : cs = []
  · subst hnil
    refine ⟨fun h => by simp at h, fun h => ?_⟩
    cases h with
    | width hne hlength => exact absurd rfl hne
    | digit hlength => cases hlength
  · by_cases hlength : cs.length = 16
    · rw [isFaulty_iff_of_length hlength]
      cases hfind : cs.find? (!isBinaryDigit ·) with
      | none => simp [hnil, hlength, hfind]
      | some c => simp [hnil, hlength, hfind, @eq_comm _ fault]
    · simp only [List.isEmpty_iff, hnil, if_false, ne_eq, hlength, not_false_eq_true, if_true,
        Except.error.injEq]
      constructor
      · rintro rfl
        exact .width hnil hlength
      · intro h
        cases h with
        | width hne hwidth => rfl
        | digit hwidth => exact absurd hwidth hlength

theorem exists_readBinary_iff {line : String} :
    (∃ found, readBinary line = .ok found) ↔
      Text.trim line.toList = [] ∨ IsDigits (Text.trim line.toList) := by
  constructor
  · rintro ⟨none | w, hread⟩
    · exact .inl (readBinary_eq_ok_none_iff.1 hread)
    · exact .inr (denotes_iff.2 (readBinary_eq_ok_some_iff.1 hread)).toIsDigits
  · rintro (hnil | ⟨hlength, hdigits⟩)
    · exact ⟨none, readBinary_eq_ok_none_iff.2 hnil⟩
    · have hbinary := binaryDigits_ofBinaryDigits hlength fun c hc =>
        isBinaryDigit_iff.2 (hdigits c hc)
      exact ⟨some _, readBinary_eq_ok_some_iff.2 hbinary.symm⟩

end Word

namespace MachineCode

/-- A text holds a program when its lines that are not blank denote the words. -/
theorem ofText_eq_ok_iff_denotes {text : String} {code : MachineCode} :
    ofText text = .ok code ↔ List.Forall₂ Word.Denotes
      (((Text.lines text).map fun line => Text.trim line.toList).filter (!·.isEmpty))
      code.words.toList := by
  have hlines : (Text.lines text).map (fun line => Text.trim line.toList) =
      (Text.linesOf text.toList).map Text.trim := by
    simp [Text.lines, Function.comp_def]
  rw [ofText_eq_ok_iff, Text.tidyLines_eq, hlines, Word.forall₂_denotes_iff]

theorem ofText_eq_error_iff_fault? {text : String} {fault : Text.Numbered BinaryFault} :
    ofText text = .error fault ↔ (Text.scan Word.readBinary text).fault? = some fault := by
  rw [ofText, Text.Scan.toExcept]
  cases (Text.scan Word.readBinary text).fault? <;> simp [Except.map]

theorem exists_ofText_iff_fault? {text : String} :
    (∃ code, ofText text = .ok code) ↔ (Text.scan Word.readBinary text).fault? = none := by
  simp only [Option.eq_none_iff_forall_ne_some, ne_eq, ← ofText_eq_error_iff_fault?]
  cases ofText text <;> simp

theorem exists_ofText_iff {text : String} :
    (∃ code, ofText text = .ok code) ↔
      ∀ line ∈ (Text.lines text).map fun line => Text.trim line.toList,
        line = [] ∨ Word.IsDigits line := by
  rw [exists_ofText_iff_fault?, Text.scan, Text.fault?_scanLines_eq_none_iff, List.forall_mem_map]
  exact forall₂_congr fun line _ => Word.exists_readBinary_iff

theorem ofText_eq_error_iff {text : String} {n : Nat} {fault : BinaryFault} :
    ofText text = .error ⟨n, fault⟩ ↔ ∃ before line after,
      (Text.lines text).map (fun line => Text.trim line.toList) = before ++ line :: after ∧
        n = before.length + 1 ∧ (∀ line ∈ before, line = [] ∨ Word.IsDigits line) ∧
        Word.IsFaulty line fault := by
  rw [ofText_eq_error_iff_fault?]
  constructor
  · intro h
    obtain ⟨before, line, after, hlines, hline, hfault, hbefore⟩ :=
      Text.exists_of_fault?_scanLines h
    refine ⟨before.map fun line => Text.trim line.toList, Text.trim line.toList,
      after.map fun line => Text.trim line.toList, ?_, ?_,
      List.forall_mem_map.2 fun l hl => Word.exists_readBinary_iff.1 (hbefore l hl),
      Word.readBinary_eq_error_iff.1 hfault⟩
    · rw [hlines, List.map_append, List.map_cons]
    · rw [List.length_map, Nat.add_comm]
      exact hline
  · rintro ⟨before, line, after, hlines, rfl, hbefore, hfault⟩
    obtain ⟨first, rest, htext, rfl, hrest⟩ := List.map_eq_append_iff.1 hlines
    obtain ⟨other, last, rfl, rfl, -⟩ := List.map_eq_cons_iff.1 hrest
    have hread : ∀ l ∈ first, ∃ found, Word.readBinary l = .ok found :=
      fun l hl => Word.exists_readBinary_iff.2 (List.forall_mem_map.1 hbefore l hl)
    rw [Text.scan, htext, List.length_map, Nat.add_comm]
    exact Text.fault?_scanLines_append_cons hread (Word.readBinary_eq_error_iff.2 hfault)

end MachineCode

open MachineCode

/-- Every line of a binary text is trimmed. The text is read exactly if each of them holds nothing
or sixteen binary digits, and then its words are those that the lines with digits denote, in order
and with the most significant digit first. Otherwise the fault is that of the first line that holds
something else, with the number of that line among all lines from one on: its width in characters if
that is not sixteen, and else its first character that is no binary digit. -/
theorem binary_text_or_first_fault (text : String) :
    let lines := (Text.lines text).map fun line => Text.trim line.toList
    (∀ line said, Text.trim line = said ↔ Text.Holds line said) ∧
    ((∃ code, ofText text = .ok code) ↔ ∀ line ∈ lines, line = [] ∨ Word.IsDigits line) ∧
    (∀ code, ofText text = .ok code ↔
      List.Forall₂ Word.Denotes (lines.filter (!·.isEmpty)) code.words.toList) ∧
    ∀ n fault, ofText text = .error ⟨n, fault⟩ ↔ ∃ before line after,
      lines = before ++ line :: after ∧ n = before.length + 1 ∧
        (∀ line ∈ before, line = [] ∨ Word.IsDigits line) ∧ Word.IsFaulty line fault :=
  ⟨fun _ _ => Text.holds_iff.symm, exists_ofText_iff, fun _ => ofText_eq_ok_iff_denotes,
    fun _ _ => ofText_eq_error_iff⟩

/-- A wrong digit on the second line comes before a wrong width on the third. -/
theorem binary_text_or_first_fault_digit :
    ofText "\n\t0000000000000 1x\r\n010" = .error ⟨2, .notBinary ' '⟩ := by
  obtain ⟨-, -, -, hfault⟩ := binary_text_or_first_fault "\n\t0000000000000 1x\r\n010"
  have hzeros : ∀ b ∈ "0000000000000".toList, b = '0' ∨ b = '1' := by decide
  exact (hfault _ _).2 ⟨[[]], "0000000000000 1x".toList, ["010".toList], by decide +kernel, rfl,
    by simp, .digit rfl rfl hzeros (by decide)⟩

/-- The width is measured first. -/
example : ofText "2" = .error ⟨1, .wrongWidth 1⟩ := by decide +kernel

end HackToolchain
