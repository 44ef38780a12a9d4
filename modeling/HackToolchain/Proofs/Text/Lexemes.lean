import Mathlib.Data.List.Induction
import Mathlib.Data.Nat.Digits.Defs
import HackToolchain.Symbol
import HackToolchain.Text.Decimal

/-!
# Numerals, symbols and names

What the readers accept as a numeral, as a symbol and as a name, said without them: by the ranges of
the characters, and for a numeral by the sum of its digits times the powers of ten.
-/

namespace HackToolchain

namespace Text

def IsDigit (c : Char) : Prop :=
  '0' ≤ c ∧ c ≤ '9'

def IsLetter (c : Char) : Prop :=
  ('a' ≤ c ∧ c ≤ 'z') ∨ ('A' ≤ c ∧ c ≤ 'Z')

/-- A text of one or more digits and the number that it denotes in base ten. -/
structure Denotes (cs : List Char) (value : Nat) : Prop where
  ne_nil : cs ≠ []
  digits : ∀ c ∈ cs, IsDigit c
  value_eq : value = Nat.ofDigits 10 (cs.reverse.map fun c => c.toNat - '0'.toNat)

theorem isDigit_iff {c : Char} : c.isDigit = true ↔ IsDigit c := by
  simp only [Char.isDigit, Bool.and_eq_true, decide_eq_true_eq]
  rfl

theorem isAlpha_iff {c : Char} : c.isAlpha = true ↔ IsLetter c := by
  delta Char.isAlpha Char.isUpper Char.isLower
  simp only [Bool.or_eq_true, Bool.and_eq_true, decide_eq_true_eq]
  exact or_comm

/-- Digits are read from the left, so the last one counts once. -/
theorem digitsValue_eq_ofDigits (cs : List Char) :
    digitsValue 0 cs = Nat.ofDigits 10 (cs.reverse.map fun c => c.toNat - '0'.toNat) := by
  induction cs using List.reverseRecOn with
  | nil => rfl
  | append_singleton cs c ih =>
      rw [digitsValue_append, ih, digitsValue_cons, digitsValue_nil, appendDigit,
        List.reverse_append, List.reverse_singleton, List.singleton_append, List.map_cons,
        Nat.ofDigits_cons, Nat.add_comm]

theorem decimal?_eq_some_iff {cs : List Char} {value : Nat} :
    decimal? cs = some value ↔ Denotes cs value := by
  have hnumeral : isNumeral cs = true ↔ cs ≠ [] ∧ ∀ c ∈ cs, IsDigit c := by
    simp [isNumeral, isDigit_iff]
  rw [decimal?, digitsValue_eq_ofDigits]
  constructor
  · intro h
    obtain ⟨hcs, hvalue⟩ := Option.ite_none_right_eq_some.1 h
    obtain ⟨hne, hdigits⟩ := hnumeral.1 hcs
    exact ⟨hne, hdigits, (Option.some.inj hvalue).symm⟩
  · rintro ⟨hne, hdigits, rfl⟩
    rw [if_pos (hnumeral.2 ⟨hne, hdigits⟩)]

/-- A numeral with leading zeros. -/
example : Denotes "007".toList 7 :=
  decimal?_eq_some_iff.1 (by decide)

end Text

namespace Symbol

open Text

/-- A letter, a digit or one of the marks `_`, `.` and `:`. -/
def IsNameChar (c : Char) : Prop :=
  IsLetter c ∨ IsDigit c ∨ c = '_' ∨ c = '.' ∨ c = ':'

/-- A text of one or more allowed characters that does not begin with a digit. -/
structure IsIdentifier (allowed : Char → Prop) (text : String) : Prop where
  ne_nil : text.toList ≠ []
  head : ∀ c ∈ text.toList.head?, ¬IsDigit c
  chars : ∀ c ∈ text.toList, allowed c

/-- Names have letters, digits and three marks. -/
abbrev IsName (text : String) : Prop :=
  IsIdentifier IsNameChar text

/-- Symbols have the mark `$` besides. -/
abbrev IsSymbol (text : String) : Prop :=
  IsIdentifier (fun c => IsNameChar c ∨ c = '$') text

theorem isSymbolChar_iff {c : Char} : isSymbolChar c = true ↔ IsNameChar c ∨ c = '$' := by
  simp only [isSymbolChar, IsNameChar, Char.isAlphanum, Bool.or_eq_true, isAlpha_iff, isDigit_iff,
    beq_iff_eq]
  tauto

theorem isSymbol_iff {text : String} : isSymbol text = true ↔ IsSymbol text := by
  have hhead : (∀ c ∈ text.toList.head?, c.isDigit = false) ↔
      ∀ c ∈ text.toList.head?, ¬IsDigit c := by
    simp only [← isDigit_iff, Bool.not_eq_true]
  rw [isSymbol, isSymbolWord_iff, hhead]
  simp only [isSymbolChar_iff]
  exact ⟨fun ⟨hne, hdigit, hchars⟩ => ⟨hne, hdigit, hchars⟩,
    fun h => ⟨h.ne_nil, h.head, h.chars⟩⟩

theorem isName_iff {text : String} : isName text = true ↔ IsName text := by
  have hdollar : ¬IsNameChar '$' := by
    unfold IsNameChar IsLetter IsDigit
    decide
  rw [isName, Bool.and_eq_true, isSymbol_iff, List.all_eq_true]
  constructor
  · rintro ⟨⟨hne, hdigit, hchars⟩, hall⟩
    exact ⟨hne, hdigit, fun c hc => (hchars c hc).resolve_right (bne_iff_ne.1 (hall c hc))⟩
  · rintro ⟨hne, hdigit, hchars⟩
    refine ⟨⟨hne, hdigit, fun c hc => .inl (hchars c hc)⟩, fun c hc => bne_iff_ne.2 ?_⟩
    rintro rfl
    exact hdollar (hchars _ hc)

end Symbol

end HackToolchain
