import HackToolchain.Proofs.Machine.Computation
import HackToolchain.Proofs.Vm.Effect

/-!
# Comparing by a difference

A comparison looks at the difference of its operands, which is a word. The order of their numbers
is found right where the difference of the numbers is that of the words. Elsewhere the difference of
the words has the other sign, and is not zero.
-/

namespace HackToolchain

namespace Word

variable {x y : Word}

theorem signed_bounds (w : Word) : -32768 ≤ w.signed ∧ w.signed < 32768 :=
  ⟨BitVec.le_toInt w.toBitVec, BitVec.toInt_lt⟩

theorem signed_sub_emod (x y : Word) :
    (x - y).signed % 65536 = (x.signed - y.signed) % 65536 := by
  have hsub : (x - y).signed = (x.signed - y.signed).bmod 65536 := BitVec.toInt_sub ..
  rw [hsub]
  exact Int.bmod_emod

/-- The difference of two numbers is the number of a word. -/
def HasDifference (x y : Word) : Prop :=
  -32768 ≤ x.signed - y.signed ∧ x.signed - y.signed ≤ 32767

theorem signed_sub_of_hasDifference (h : HasDifference x y) :
    (x - y).signed = x.signed - y.signed := by
  have hbounds := signed_bounds (x - y)
  have hmod := signed_sub_emod x y
  rw [HasDifference] at h
  omega

/-- The sign of a difference that is no word is turned. -/
theorem signed_sub_of_not_hasDifference (h : ¬HasDifference x y) :
    (0 < (x - y).signed ↔ x.signed < y.signed) ∧ ((x - y).signed < 0 ↔ y.signed < x.signed) := by
  have hbounds := signed_bounds (x - y)
  have hx := signed_bounds x
  have hy := signed_bounds y
  have hmod := signed_sub_emod x y
  rw [HasDifference] at h
  omega

theorem ne_of_not_hasDifference (h : ¬HasDifference x y) : x.signed ≠ y.signed := by
  rw [HasDifference] at h
  omega

end Word

namespace Vm

variable {x y : Word}

theorem truth_eq_iff (condition : Jump) (x y : Word) :
    truth condition x y = 0xFFFF ↔ condition.Holds (x - y) := by
  have htrue : (-1 : Word) = 0xFFFF := rfl
  rw [truth]
  split <;> simp [*]

theorem truth_eq_or (condition : Jump) (x y : Word) :
    truth condition x y = 0xFFFF ∨ truth condition x y = 0 := by
  rw [truth]
  split
  · exact .inl rfl
  · exact .inr rfl

/-- What the flag of a comparison says: which sign the difference of the operands has, whether they
are equal, and, exactly where their numbers have a difference that is a word, in which order they
are. -/
def Operator.Tells (x y flag : Word) : Operator → Prop
  | eq => (flag = 0xFFFF ↔ (x - y).signed = 0) ∧ (flag = 0xFFFF ↔ x = y)
  | gt => (flag = 0xFFFF ↔ 0 < (x - y).signed) ∧
      ((flag = 0xFFFF ↔ y.signed < x.signed) ↔ Word.HasDifference x y)
  | lt => (flag = 0xFFFF ↔ (x - y).signed < 0) ∧
      ((flag = 0xFFFF ↔ x.signed < y.signed) ↔ Word.HasDifference x y)
  | _ => True

theorem Operator.tells_value (operator : Operator) (x y : Word) :
    operator.Tells x y (operator.value x y) := by
  cases operator with
  | eq =>
      have hflag : truth .eq x y = 0xFFFF ↔ (x - y).signed = 0 := truth_eq_iff .eq x y
      refine ⟨hflag, hflag.trans ?_⟩
      rw [Word.signed_eq_zero_iff]
      grind
  | gt =>
      have hflag : truth .gt x y = 0xFFFF ↔ 0 < (x - y).signed := truth_eq_iff .gt x y
      refine ⟨hflag, (iff_congr hflag Iff.rfl).trans ?_⟩
      by_cases h : Word.HasDifference x y
      · rw [Word.signed_sub_of_hasDifference h]
        exact iff_of_true (by omega) h
      · have hne := Word.ne_of_not_hasDifference h
        rw [(Word.signed_sub_of_not_hasDifference h).1]
        exact iff_of_false (by omega) h
  | lt =>
      have hflag : truth .lt x y = 0xFFFF ↔ (x - y).signed < 0 := truth_eq_iff .lt x y
      refine ⟨hflag, (iff_congr hflag Iff.rfl).trans ?_⟩
      by_cases h : Word.HasDifference x y
      · rw [Word.signed_sub_of_hasDifference h]
        exact iff_of_true (by omega) h
      · have hne := Word.ne_of_not_hasDifference h
        rw [(Word.signed_sub_of_not_hasDifference h).2]
        exact iff_of_false (by omega) h
  | _ => trivial

theorem Operator.value_of_isComparison {operator : Operator} (h : operator.isComparison = true)
    (x y : Word) : operator.value x y = 0xFFFF ∨ operator.value x y = 0 := by
  cases operator with
  | eq | gt | lt => exact truth_eq_or _ x y
  | _ => simp [isComparison, condition?] at h

end Vm

end HackToolchain
