import Mathlib.Data.Nat.Bitwise
import HackToolchain.MachineCode.Binary
import HackToolchain.Proofs.Text.Code

/-!
# The binary digits of a word

Writing the digits of a word and reading sixteen digits undo each other: bit `i` of a word is its
digit `i` counted from the end. So a line holds a word exactly when the digits of that word stand in
it between blanks.
-/

namespace HackToolchain

namespace Word

theorem bit_eq_testBit (w : Word) {i : Word} (h : i.toNat < 16) :
    w.bit i = w.toNat.testBit i.toNat := by
  rw [bit, Bool.eq_iff_iff, beq_iff_eq, ← UInt16.toNat_inj, UInt16.toNat_and,
    UInt16.toNat_shiftRight, Nat.mod_eq_of_lt h, Nat.testBit_eq_decide_div_mod_eq,
    decide_eq_true_eq, Nat.shiftRight_eq_div_pow]
  exact Eq.congr (Nat.and_one_is_mod _) rfl

theorem testBit_appendDigit (w : Word) (b : Bool) {k : Nat} (hk : k < 16) :
    (w <<< 1 ||| if b then 1 else 0).toNat.testBit k =
      if k = 0 then b else w.toNat.testBit (k - 1) := by
  have hdigit : (if b then 1 else 0 : Word).toNat = b.toNat := by cases b <;> rfl
  rw [UInt16.toNat_or, UInt16.toNat_shiftLeft, hdigit, Nat.testBit_or, Nat.testBit_mod_two_pow,
    show (1 : Word).toNat % 16 = 1 from rfl, Nat.testBit_shiftLeft]
  cases k with
  | zero => cases b <;> simp
  | succ k =>
      have hhigh : b.toNat.testBit (k + 1) = false := by cases b <;> simp [Nat.testBit_succ]
      simp [hk, hhigh]

/-- The digits of a word are its bits, the last digit the lowest one. -/
theorem testBit_ofBinaryDigits (cs : List Char) {k : Nat} (hk : k < 16) :
    (ofBinaryDigits cs).toNat.testBit k = (cs.reverse[k]? == some '1') := by
  induction cs using List.reverseRecOn generalizing k with
  | nil => simp [ofBinaryDigits]
  | append_singleton cs c ih =>
      have hstep := testBit_appendDigit (ofBinaryDigits cs) (c == '1') hk
      rw [ofBinaryDigits, List.foldl_append, ← ofBinaryDigits, List.foldl_cons, List.foldl_nil, hstep,
        List.reverse_append]
      cases k with
      | zero => simp
      | succ k =>
          rw [if_neg (Nat.succ_ne_zero k)]
          exact ih (Nat.lt_of_succ_lt hk)

theorem getElem?_binaryDigits (w : Word) {k : Nat} (hk : k < 16) :
    w.binaryDigits.reverse[k]? = some (if w.toNat.testBit k then '1' else '0') := by
  have hposition : bitPositions.reverse[k]? = some (.ofNat k) := by
    revert k
    decide
  have hlt : (UInt16.ofNat k).toNat = k := UInt16.toNat_ofNat_of_lt' (Nat.lt_trans hk (by decide))
  rw [binaryDigits, ← List.map_reverse, List.getElem?_map, hposition, Option.map_some,
    bit_eq_testBit w (hlt.symm ▸ hk), hlt]

theorem isBinaryDigit_iff {c : Char} : isBinaryDigit c = true ↔ c = '0' ∨ c = '1' := by
  simp [isBinaryDigit]

theorem isBinaryDigit_of_mem {w : Word} {c : Char} (h : c ∈ w.binaryDigits) :
    isBinaryDigit c = true := by
  obtain ⟨i, -, rfl⟩ := List.mem_map.1 h
  cases w.bit i <;> rfl

theorem ofBinaryDigits_binaryDigits (w : Word) : ofBinaryDigits w.binaryDigits = w := by
  rw [← UInt16.toNat_inj]
  refine Nat.eq_of_testBit_eq fun k => ?_
  by_cases hk : k < 16
  · rw [testBit_ofBinaryDigits _ hk, getElem?_binaryDigits w hk]
    cases w.toNat.testBit k <;> rfl
  · have hbig (x : Word) : x.toNat.testBit k = false :=
      Nat.testBit_lt_two_pow (Nat.lt_of_lt_of_le x.toNat_lt (Nat.pow_le_pow_right (by decide)
        (Nat.le_of_not_lt hk)))
    rw [hbig, hbig]

theorem binaryDigits_ofBinaryDigits {cs : List Char} (hlength : cs.length = 16)
    (hdigits : ∀ c ∈ cs, isBinaryDigit c = true) : (ofBinaryDigits cs).binaryDigits = cs := by
  rw [← List.reverse_inj]
  refine List.ext_getElem? fun k => ?_
  by_cases hk : k < 16
  · have hlt : k < cs.reverse.length := by rwa [List.length_reverse, hlength]
    rw [getElem?_binaryDigits _ hk, testBit_ofBinaryDigits _ hk, List.getElem?_eq_getElem hlt]
    rcases isBinaryDigit_iff.1 (hdigits _ (List.mem_reverse.1 (List.getElem_mem hlt))) with h | h <;>
      simp [h]
  · rw [List.getElem?_eq_none (by simpa using hk), List.getElem?_eq_none (by simpa [hlength] using hk)]

theorem binaryDigits_injective : Function.Injective binaryDigits :=
  Function.LeftInverse.injective ofBinaryDigits_binaryDigits

theorem isTight_binaryDigits (w : Word) : Text.IsTight w.binaryDigits := by
  have hblank {c : Char} (hc : c ∈ w.binaryDigits) : Text.isBlank c = false := by
    rcases isBinaryDigit_iff.1 (isBinaryDigit_of_mem hc) with rfl | rfl <;> decide
  exact ⟨fun c hc => hblank (List.mem_of_mem_head? hc), fun c hc => hblank (List.mem_of_getLast? hc)⟩

theorem readBinary_eq_ok_none_iff {line : String} :
    readBinary line = .ok none ↔ Text.trim line.toList = [] := by
  unfold readBinary
  by_cases hnil : Text.trim line.toList = []
  · simp [hnil]
  · simp only [List.isEmpty_iff, hnil, if_false, iff_false]
    split
    · simp
    · split <;> simp

theorem readBinary_eq_ok_some_iff {line : String} {w : Word} :
    readBinary line = .ok (some w) ↔ Text.trim line.toList = w.binaryDigits := by
  unfold readBinary
  generalize Text.trim line.toList = cs
  constructor
  · intro h
    simp only at h
    split at h
    · simp at h
    · split at h
      · simp at h
      · next hlength =>
          split at h
          · simp at h
          · next hdigits =>
              obtain rfl : ofBinaryDigits cs = w := by simpa using h
              rw [binaryDigits_ofBinaryDigits (by simpa using hlength)]
              simpa using hdigits
  · rintro rfl
    have hnone : w.binaryDigits.find? (!isBinaryDigit ·) = none := by
      simpa using fun c => isBinaryDigit_of_mem
    have hne : w.binaryDigits.isEmpty = false := rfl
    simp [hne, hnone, ofBinaryDigits_binaryDigits]

end Word

end HackToolchain
