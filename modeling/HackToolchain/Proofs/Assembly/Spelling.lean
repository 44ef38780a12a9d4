import HackToolchain.Assembly.Listing
import HackToolchain.Assembly.Reader
import HackToolchain.Proofs.Text.Plain

/-!
# Generated statements are read as they were meant

`Statement.render` writes a statement as text and `readStatement` reads text. A statement whose
symbols are symbols and whose numbers are addresses is read back: an address instruction and a label
as they are, a compute instruction as its spelling, which resolves to the instruction it was made
from. A comment reads as nothing.
-/

namespace HackToolchain

theorem Symbol.isPlain_of_isSymbolChar {c : Char} (h : isSymbolChar c = true) :
    Text.isPlain c = true := by
  have hrange : 36 ≤ c.toNat ∧ c.toNat ≤ 122 ∧ c.toNat ≠ 47 := by
    delta isSymbolChar Char.isAlphanum Char.isAlpha Char.isUpper Char.isLower Char.isDigit at h
    simp only [Bool.or_eq_true, beq_iff_eq, decide_eq_true_eq, ge_iff_le, Bool.and_eq_true,
      UInt32.le_iff_toNat_le] at h
    rcases h with ((((h | rfl) | rfl) | rfl) | rfl)
    · have hval : c.val.toNat = c.toNat := rfl
      simp only [hval] at h
      simp at h
      omega
    all_goals decide
  have hslash : c ≠ '/' := by
    rintro rfl
    exact absurd hrange.2.2 (by decide)
  simp only [Text.isPlain, Text.isBlank, Text.blankRanges, List.any_cons, List.any_nil,
    Bool.and_eq_true, bne_iff_ne, ne_eq, hslash, not_false_eq_true, and_true, Bool.not_eq_true',
    Bool.or_eq_false_iff, Bool.and_eq_false_iff, decide_eq_false_iff_not, Bool.or_false]
  omega

namespace Text

theorem digitsValue_toDigits (n : Nat) : digitsValue 0 (Nat.toDigits 10 n) = n := by
  have h : Nat.ofDigitChars 10 (Nat.toDigits 10 n) 0 = n := Nat.ofDigitChars_ten_toDigits
  rwa [Nat.ofDigitChars_eq_foldl] at h

theorem isDigit_of_mem_toString (n : Nat) {c : Char} (h : c ∈ (toString n).toList) :
    c.isDigit = true := by
  rw [Nat.toString_eq_repr, Nat.toList_repr] at h
  exact Nat.isDigit_of_mem_toDigits (by decide) (by decide) h

theorem decimal?_toString (n : Nat) : decimal? (toString n).toList = some n := by
  have hall : ∀ c ∈ (toString n).toList, c.isDigit = true :=
    fun c hc => isDigit_of_mem_toString n hc
  have hne : (toString n).toList ≠ [] := by
    rw [Nat.toString_eq_repr, Nat.toList_repr]
    exact Nat.toDigits_ne_nil
  have hnumeral : isNumeral (toString n).toList = true := by
    simp only [isNumeral, Bool.and_eq_true, Bool.not_eq_true', List.all_eq_true]
    exact ⟨List.isEmpty_eq_false_iff.2 hne, hall⟩
  rw [decimal?, if_pos hnumeral, Nat.toString_eq_repr, Nat.toList_repr, digitsValue_toDigits]

theorem toString_inj {m n : Nat} (h : toString m = toString n) : m = n := by
  have hm := decimal?_toString m
  rw [h, decimal?_toString n] at hm
  exact (Option.some.inj hm).symm

end Text

namespace Comp

@[simp] theorem ofMnemonic?_mnemonic (comp : Comp) : ofMnemonic? comp.mnemonic = some comp := by
  cases comp with
  | source s | notSource s | negSource s | incSource s | decSource s => cases s <;> decide
  | add s | subSource s | subD s | and s | or s => cases s <;> decide
  | _ => decide

end Comp

namespace Jump

@[simp] theorem ofMnemonic?_mnemonic (jump : Jump) : ofMnemonic? jump.mnemonic = some jump := by
  cases jump <;> decide

end Jump

namespace Computation

open Assembly (Spelling)

def spelling (c : Computation) : Spelling where
  dest? := if c.dest = Dest.nowhere then none else some c.dest.mnemonic
  comp := c.comp.mnemonic
  jump? := c.jump.map Jump.mnemonic

theorem resolve_spelling (c : Computation) : c.spelling.resolve = .ok c := by
  obtain ⟨dest, comp, jump⟩ := c
  have hdest : dest ≠ Dest.nowhere → Dest.ofMnemonic? dest.mnemonic = some dest := by
    intro h
    rw [Dest.ofMnemonic?, Dest.mnemonic, String.toList_ofList, Dest.ofLetters?_letters h]
  by_cases h : dest = Dest.nowhere
  · cases jump <;> simp [Spelling.resolve, spelling, h, Spelling.resolvePart, bind, Except.bind,
      pure, Except.pure, Except.map]
  · cases jump <;> simp [Spelling.resolve, spelling, h, hdest h, Spelling.resolvePart, bind,
      Except.bind, pure, Except.pure, Except.map]

def isPartChar (c : Char) : Bool :=
  Text.isPlain c && c != '=' && c != ';' && c != '@' && c != '('

theorem isPartChar_of_mem_comp (comp : Comp) {c : Char} (h : c ∈ comp.mnemonic.toList) :
    isPartChar c = true := by
  have checked : ∀ comp ∈ Comp.all, ∀ c ∈ comp.mnemonic.toList, isPartChar c = true := by
    decide +kernel
  exact checked comp (Comp.mem_all comp) c h

theorem isPartChar_of_mem_dest (dest : Dest) {c : Char} (h : c ∈ dest.letters) :
    isPartChar c = true := by
  obtain ⟨a, d, m⟩ := dest
  revert c
  cases a <;> cases d <;> cases m <;> decide

theorem isPartChar_of_mem_jump {jump : Jump} {c : Char} (h : c ∈ jump.mnemonic.toList) :
    isPartChar c = true := by
  revert c
  cases jump <;> decide

theorem not_mem_of_isPartChar {cs : List Char} (h : ∀ c ∈ cs, isPartChar c = true) :
    '=' ∉ cs ∧ ';' ∉ cs :=
  ⟨fun hmem => absurd (h _ hmem) (by decide), fun hmem => absurd (h _ hmem) (by decide)⟩

end Computation

namespace Assembly

/-- The text of a jump behind a computation. -/
def writtenJump : Option String → List Char
  | none => []
  | some jump => ';' :: jump.toList

/-- The text of a compute instruction with given letters of its destination, mnemonic of its
computation and mnemonic of its jump. -/
def writtenParts (letters : List Char) (comp : Comp) (jump : Option Jump) : List Char :=
  (if letters = [] then [] else letters ++ ['=']) ++ comp.mnemonic.toList ++
    writtenJump (jump.map Jump.mnemonic)

/-- Written parts are read as they were meant, if the letters are not the marks that separate the
parts. -/
theorem readCompact_writtenParts {letters : List Char} (hassign : '=' ∉ letters)
    (hjump : ';' ∉ letters) (comp : Comp) (jump : Option Jump) :
    readCompact (writtenParts letters comp jump) =
      ⟨if letters = [] then none else some (String.ofList letters), comp.mnemonic,
        jump.map Jump.mnemonic⟩ := by
  obtain ⟨hcomp, hcomp'⟩ :=
    Computation.not_mem_of_isPartChar fun ch hch => Computation.isPartChar_of_mem_comp comp hch
  have hassignment (jump? : Option String) :
      readAssignment ((if letters = [] then [] else letters ++ ['=']) ++ comp.mnemonic.toList)
          jump? =
        ⟨if letters = [] then none else some (String.ofList letters), comp.mnemonic, jump?⟩ := by
    by_cases hne : letters = []
    · rw [if_pos hne, if_pos hne, List.nil_append, readAssignment,
        Text.splitFirst_of_not_mem hcomp, String.ofList_toList]
    · rw [if_neg hne, if_neg hne, List.append_assoc, List.singleton_append, readAssignment,
        Text.splitFirst_append_cons hassign]
      simp only [String.ofList_toList]
  have hsemi : ';' ∉ (if letters = [] then [] else letters ++ ['=']) ++ comp.mnemonic.toList := by
    split <;> simp [hcomp', hjump]
  rw [writtenParts, readCompact]
  cases jump with
  | none =>
      rw [Option.map_none, writtenJump, List.append_nil, Text.splitFirst_of_not_mem hsemi]
      exact hassignment none
  | some jump =>
      rw [Option.map_some, writtenJump, Text.splitFirst_append_cons hsemi]
      simp only [String.ofList_toList]
      exact hassignment (some jump.mnemonic)

end Assembly

namespace Dest

theorem letters_eq_nil_iff (dest : Dest) : dest.letters = [] ↔ dest = nowhere := by
  obtain ⟨a, d, m⟩ := dest
  cases a <;> cases d <;> cases m <;> decide

end Dest

namespace Computation

theorem toList_render (c : Computation) :
    c.render.toList = Assembly.writtenParts c.dest.letters c.comp c.jump := by
  obtain ⟨dest, comp, jump⟩ := c
  rw [Assembly.writtenParts]
  simp only [dest.letters_eq_nil_iff]
  by_cases h : dest = Dest.nowhere
  · cases jump <;> simp [render, Assembly.writtenJump, h]
  · cases jump <;> simp [render, Assembly.writtenJump, h, Dest.mnemonic]

theorem readCompact_render (c : Computation) :
    Assembly.readCompact c.render.toList = c.spelling := by
  obtain ⟨hassign, hjump⟩ := not_mem_of_isPartChar fun ch hch => isPartChar_of_mem_dest c.dest hch
  rw [toList_render, Assembly.readCompact_writtenParts hassign hjump, spelling]
  simp only [c.dest.letters_eq_nil_iff, Dest.mnemonic]

theorem isPlain_of_mem_render (c : Computation) {ch : Char} (h : ch ∈ c.render.toList) :
    Text.isPlain ch = true := by
  have hpart (hch : isPartChar ch = true) : Text.isPlain ch = true := by
    simp only [isPartChar, Bool.and_eq_true] at hch
    exact hch.1.1.1.1
  rw [toList_render, Assembly.writtenParts, List.mem_append, List.mem_append] at h
  rcases h with (h | h) | h
  · split at h
    · simp at h
    · rcases List.mem_append.1 h with h | h
      · exact hpart (isPartChar_of_mem_dest c.dest h)
      · rw [List.mem_singleton.1 h]
        decide
  · exact hpart (isPartChar_of_mem_comp c.comp h)
  · cases hjump : c.jump with
    | none => simp [hjump, Assembly.writtenJump] at h
    | some jump =>
        rw [hjump, Option.map_some, Assembly.writtenJump] at h
        rcases List.mem_cons.1 h with rfl | h
        · decide
        · exact hpart (isPartChar_of_mem_jump h)

theorem exists_render_eq_cons (c : Computation) :
    ∃ ch cs, c.render.toList = ch :: cs ∧ isPartChar ch = true := by
  obtain ⟨dest, comp, jump⟩ := c
  rw [toList_render, Assembly.writtenParts]
  by_cases h : dest.letters = []
  · have hcomp : comp.mnemonic.toList ≠ [] := by
      cases comp with
      | source s | notSource s | negSource s | incSource s | decSource s => cases s <;> decide
      | add s | subSource s | subD s | and s | or s => cases s <;> decide
      | _ => decide
    obtain ⟨ch, cs, heq⟩ := List.exists_cons_of_ne_nil hcomp
    refine ⟨ch, _, by rw [if_pos h, List.nil_append, heq, List.cons_append], ?_⟩
    exact isPartChar_of_mem_comp comp (heq ▸ List.mem_cons_self)
  · obtain ⟨ch, cs, heq⟩ := List.exists_cons_of_ne_nil h
    refine ⟨ch, _, by rw [if_neg h, heq, List.cons_append, List.cons_append, List.cons_append], ?_⟩
    exact isPartChar_of_mem_dest dest (heq ▸ List.mem_cons_self)

end Computation

namespace Assembly

/-- An operand that can be written: a symbol, or a number that is an address. -/
def Operand.IsWritable : Operand → Prop
  | number value => value ≤ MemoryMap.maxAddress
  | symbol name => Symbol.isSymbol name = true

def Instruction.IsWritable : Instruction Computation → Prop
  | address operand => operand.IsWritable
  | compute _ => True

/-- A statement that can be written: its symbols are symbols and its numbers are addresses. -/
def Statement.IsWritable : Statement Computation → Prop
  | instruction i => i.IsWritable
  | label name => Symbol.isSymbol name = true

/-- An instruction as it is read: a compute instruction is known by its spelling. -/
def Instruction.spelled : Instruction Computation → Instruction Spelling
  | address operand => .address operand
  | compute c => .compute c.spelling

def Statement.spelled : Statement Computation → Statement Spelling
  | instruction i => .instruction i.spelled
  | label name => .label name

theorem isPlain_of_mem_symbol {name : String} (h : Symbol.isSymbol name = true) {c : Char}
    (hc : c ∈ name.toList) : Text.isPlain c = true :=
  Symbol.isPlain_of_isSymbolChar ((Symbol.isSymbolWord_iff.1 h).2.2 c hc)

theorem isPlain_of_mem_operand {operand : Operand} (h : operand.IsWritable) {c : Char}
    (hc : c ∈ operand.render.toList) : Text.isPlain c = true := by
  cases operand with
  | number value =>
      have hdigit := Text.isDigit_of_mem_toString value.toNat hc
      apply Symbol.isPlain_of_isSymbolChar
      simp [Symbol.isSymbolChar, Char.isAlphanum, hdigit]
  | symbol name => exact isPlain_of_mem_symbol h hc

theorem Statement.isPlain_of_mem_render {s : Statement Computation} (h : s.IsWritable) {c : Char}
    (hc : c ∈ s.render.toList) : Text.isPlain c = true := by
  cases s with
  | instruction i =>
      cases i with
      | address operand =>
          rw [Statement.render, String.toList_append, List.mem_append] at hc
          rcases hc with hc | hc
          · rw [List.mem_singleton.1 hc]
            decide
          · exact isPlain_of_mem_operand h hc
      | compute computation => exact computation.isPlain_of_mem_render hc
  | label name =>
      rw [Statement.render, String.toList_append, String.toList_append, List.mem_append,
        List.mem_append] at hc
      rcases hc with (hc | hc) | hc
      · rw [List.mem_singleton.1 hc]
        decide
      · exact isPlain_of_mem_symbol h hc
      · rw [List.mem_singleton.1 hc]
        decide

theorem decimal?_of_isSymbolWord {cs : List Char} (h : Symbol.isSymbolWord cs = true) :
    Text.decimal? cs = none := by
  obtain ⟨hne, hhead, -⟩ := Symbol.isSymbolWord_iff.1 h
  obtain ⟨c, cs, rfl⟩ := List.exists_cons_of_ne_nil hne
  have hdigit : c.isDigit = false := hhead c rfl
  simp [Text.decimal?, Text.isNumeral, hdigit]

theorem readOperand_of_isSymbolWord {cs : List Char} (h : Symbol.isSymbolWord cs = true) :
    readOperand cs = .ok (.symbol (String.ofList cs)) := by
  rw [readOperand, decimal?_of_isSymbolWord h]
  simp [h]

theorem readOperand_render {operand : Operand} (h : operand.IsWritable) :
    readOperand operand.render.toList = .ok operand := by
  cases operand with
  | number value =>
      have hdecimal : Text.decimal? (toString value).toList = some value.toNat :=
        Text.decimal?_toString value.toNat
      have hle : value.toNat ≤ MemoryMap.maxAddress.toNat := UInt16.le_iff_toNat_le.1 h
      rw [Operand.render, readOperand, hdecimal]
      simp [hle]
  | symbol name =>
      have hword : Symbol.isSymbolWord name.toList = true := h
      rw [Operand.render, readOperand_of_isSymbolWord hword, String.ofList_toList]

theorem readStatement_render {s : Statement Computation} (h : s.IsWritable) :
    readStatement s.render = .ok (some s.spelled) := by
  rw [readStatement, Text.code_of_forall_isPlain fun c hc => Statement.isPlain_of_mem_render h hc]
  cases s with
  | instruction i =>
      cases i with
      | address operand =>
          rw [Statement.render, String.toList_append, show "@".toList = ['@'] from rfl,
            List.singleton_append, readCode, readOperand_render h]
          rfl
      | compute computation =>
          have hfilter := Text.filter_not_isBlank_of_forall_isPlain
            fun c hc => computation.isPlain_of_mem_render hc
          obtain ⟨ch, cs, heq, hpart⟩ := computation.exists_render_eq_cons
          have hat : ch ≠ '@' := by
            rintro rfl
            exact absurd hpart (by decide)
          have hparen : ch ≠ '(' := by
            rintro rfl
            exact absurd hpart (by decide)
          rw [Statement.render, Statement.spelled, Instruction.spelled,
            ← computation.readCompact_render]
          unfold readCode
          split
          · next hnil => simp [hnil] at heq
          · next hcons => exact absurd (List.cons.inj (heq.symm.trans hcons)).1 hat
          · next hcons => exact absurd (List.cons.inj (heq.symm.trans hcons)).1 hparen
          · rw [hfilter]
  | label name =>
      have hword : Symbol.isSymbolWord name.toList = true := h
      rw [Statement.render, String.toList_append, String.toList_append,
        show "(".toList = ['('] from rfl, show ")".toList = [')'] from rfl, List.singleton_append,
        List.cons_append, readCode]
      simp [readLabel, hword, Except.map, Statement.spelled]

theorem readStatement_comment (text : String) : readStatement ("// " ++ text) = .ok none := by
  rw [readStatement, String.toList_append, show "// ".toList = ['/', '/', ' '] from rfl,
    List.cons_append, List.cons_append, Text.code_comment]
  rfl

end Assembly

end HackToolchain
