import HackToolchain.Proofs.Assembly.Parts
import HackToolchain.Proofs.Assembly.Words
import HackToolchain.Proofs.Machine.Computation
import HackToolchain.Proofs.Text.Comment
import HackToolchain.Proofs.Text.Lexemes

/-!
# The grammar of lines

What a line says is an address instruction, a label, or the text of a compute instruction, of which
only the characters that are no blanks count. The forms of each are given here without the reader. A
line is read as what it has the form of; a line that begins like an address instruction or a label
and has the form of neither is refused; and a compute instruction has a word exactly if its text is
made of a destination, a mnemonic and a jump. The destination may have its letters in any order,
since each of them sets a bit of its own.
-/

namespace HackToolchain

namespace Dest

theorem IsNamedBy.eq {dest other : Dest} {cs : List Char} (h : dest.IsNamedBy cs)
    (h' : other.IsNamedBy cs) : dest = other := by
  obtain ⟨a, d, m⟩ := dest
  obtain ⟨a', d', m'⟩ := other
  obtain rfl : a = a' := h.a.trans h'.a.symm
  obtain rfl : d = d' := h.d.trans h'.d.symm
  obtain rfl : m = m' := h.m.trans h'.m.symm
  rfl

theorem IsNamedBy.exists_insert {dest : Dest} {cs : List Char} (h : dest.IsNamedBy cs) {c : Char}
    (hletter : c = 'A' ∨ c = 'D' ∨ c = 'M') (hnew : c ∉ cs) :
    ∃ next, dest.insert? c = some next := by
  have ha := h.a
  have hd := h.d
  have hm := h.m
  rcases hletter with rfl | rfl | rfl
  · exact ⟨{ dest with a := true }, by simp [insert?, ha, hnew]⟩
  · exact ⟨{ dest with d := true }, by simp [insert?, hd, hnew]⟩
  · exact ⟨{ dest with m := true }, by simp [insert?, hm, hnew]⟩

theorem foldlM_of_isNamedBy {start dest : Dest} {before cs : List Char}
    (hstart : start.IsNamedBy before) (h : dest.IsNamedBy (before ++ cs)) :
    cs.foldlM insert? start = some dest := by
  induction cs generalizing start before with
  | nil =>
      rw [List.append_nil] at h
      exact congrArg some (hstart.eq h)
  | cons c cs ih =>
      rw [← List.singleton_append, ← List.append_assoc] at h
      have hnew : c ∉ before := fun hmem =>
        (List.nodup_append.1 (List.nodup_append.1 h.nodup).1).2.2 c hmem c
          (List.mem_singleton_self c) rfl
      have hletter := h.subset c (by simp)
      obtain ⟨next, hnext⟩ := hstart.exists_insert hletter hnew
      rw [List.foldlM_cons, hnext]
      exact ih (hstart.insert hnext) h

theorem ofLetters?_of_isNamedBy {dest : Dest} {cs : List Char} (hne : cs ≠ [])
    (h : dest.IsNamedBy cs) : ofLetters? cs = some dest := by
  rw [ofLetters?, if_neg (by simpa using hne)]
  exact foldlM_of_isNamedBy isNamedBy_nowhere h

theorem exists_isNamedBy {cs : List Char} (hnodup : cs.Nodup)
    (hsubset : ∀ c ∈ cs, c = 'A' ∨ c = 'D' ∨ c = 'M') : ∃ dest : Dest, dest.IsNamedBy cs :=
  ⟨⟨decide ('A' ∈ cs), decide ('D' ∈ cs), decide ('M' ∈ cs)⟩, hnodup, hsubset, rfl, rfl, rfl⟩

end Dest

namespace Assembly

open Text (Denotes)

def compTexts : List String :=
  ["0", "1", "-1", "D", "A", "!D", "!A", "-D", "-A", "D+1", "A+1", "D-1", "A-1", "D+A", "D-A",
    "A-D", "D&A", "D|A", "M", "!M", "-M", "M+1", "M-1", "D+M", "D-M", "M-D", "D&M", "D|M"]

def jumpTexts : List String :=
  ["JGT", "JEQ", "JGE", "JLT", "JNE", "JLE", "JMP"]

theorem mem_compTexts {text : String} : text ∈ compTexts ↔ ∃ comp, Comp.mnemonic comp = text := by
  have htexts : compTexts = Comp.all.map Comp.mnemonic := by decide
  simp [htexts, Comp.mem_all]

theorem mem_jumpTexts {text : String} : text ∈ jumpTexts ↔ ∃ jump, Jump.mnemonic jump = text := by
  have htexts : jumpTexts = Jump.all.map Jump.mnemonic := by decide
  simp [htexts, Jump.mem_all]

/-- One or more of the letters A, D and M, each at most once. -/
structure IsDest (letters : List Char) : Prop where
  ne_nil : letters ≠ []
  nodup : letters.Nodup
  subset : ∀ c ∈ letters, c = 'A' ∨ c = 'D' ∨ c = 'M'

/-- The four forms of a compute instruction without blanks, with the letters of its destination. -/
inductive ComputeForm : List Char → List Char → Prop
  | comp {comp : String} (hcomp : comp ∈ compTexts) : ComputeForm [] comp.toList
  | assign {letters : List Char} {comp : String} (hdest : IsDest letters)
      (hcomp : comp ∈ compTexts) : ComputeForm letters (letters ++ '=' :: comp.toList)
  | branch {comp jump : String} (hcomp : comp ∈ compTexts) (hjump : jump ∈ jumpTexts) :
      ComputeForm [] (comp.toList ++ ';' :: jump.toList)
  | assignBranch {letters : List Char} {comp jump : String} (hdest : IsDest letters)
      (hcomp : comp ∈ compTexts) (hjump : jump ∈ jumpTexts) :
      ComputeForm letters (letters ++ '=' :: comp.toList ++ ';' :: jump.toList)

theorem computeForm_iff {letters text : List Char} :
    ComputeForm letters text ↔
      (letters.Nodup ∧ ∀ c ∈ letters, c = 'A' ∨ c = 'D' ∨ c = 'M') ∧
        ∃ comp jump, text = writtenParts letters comp jump := by
  constructor
  · intro h
    cases h with
    | comp hcomp =>
        obtain ⟨comp, rfl⟩ := mem_compTexts.1 hcomp
        exact ⟨⟨.nil, by simp⟩, comp, none, by simp [writtenParts, writtenJump]⟩
    | assign hdest hcomp =>
        obtain ⟨comp, rfl⟩ := mem_compTexts.1 hcomp
        exact ⟨⟨hdest.nodup, hdest.subset⟩, comp, none,
          by simp [writtenParts, writtenJump, hdest.ne_nil]⟩
    | branch hcomp hjump =>
        obtain ⟨comp, rfl⟩ := mem_compTexts.1 hcomp
        obtain ⟨jump, rfl⟩ := mem_jumpTexts.1 hjump
        exact ⟨⟨.nil, by simp⟩, comp, some jump, by simp [writtenParts, writtenJump]⟩
    | assignBranch hdest hcomp hjump =>
        obtain ⟨comp, rfl⟩ := mem_compTexts.1 hcomp
        obtain ⟨jump, rfl⟩ := mem_jumpTexts.1 hjump
        exact ⟨⟨hdest.nodup, hdest.subset⟩, comp, some jump,
          by simp [writtenParts, writtenJump, hdest.ne_nil]⟩
  · rintro ⟨⟨hnodup, hsubset⟩, comp, jump, rfl⟩
    have hcomp : comp.mnemonic ∈ compTexts := mem_compTexts.2 ⟨comp, rfl⟩
    have hjump (jump : Jump) : jump.mnemonic ∈ jumpTexts := mem_jumpTexts.2 ⟨jump, rfl⟩
    by_cases hne : letters = []
    · subst hne
      cases jump with
      | none => simpa [writtenParts, writtenJump] using ComputeForm.comp hcomp
      | some jump => simpa [writtenParts, writtenJump] using ComputeForm.branch hcomp (hjump jump)
    · have hdest : IsDest letters := ⟨hne, hnodup, hsubset⟩
      cases jump with
      | none => simpa [writtenParts, writtenJump, hne] using ComputeForm.assign hdest hcomp
      | some jump =>
          simpa [writtenParts, writtenJump, hne] using
            ComputeForm.assignBranch hdest hcomp (hjump jump)

/-- A text without blanks means a compute instruction exactly if it is its written parts. -/
theorem resolve_readCompact_iff {text : List Char} {c : Computation} :
    (readCompact text).resolve = .ok c ↔
      ∃ letters, c.dest.IsNamedBy letters ∧ text = writtenParts letters c.comp c.jump := by
  constructor
  · intro h
    obtain ⟨letters, hnamed, hwritten⟩ := exists_writtenParts h
    exact ⟨letters, hnamed, by rw [← hwritten, written_readCompact]⟩
  · rintro ⟨letters, hnamed, rfl⟩
    obtain ⟨dest, comp, jump⟩ := c
    obtain ⟨hassign, hsemi⟩ := not_mem_of_letters hnamed.subset
    rw [readCompact_writtenParts hassign hsemi]
    by_cases hne : letters = []
    · subst hne
      obtain rfl : Dest.nowhere = dest := Dest.isNamedBy_nowhere.eq hnamed
      cases jump <;> simp [Spelling.resolve, Spelling.resolvePart, bind, Except.bind, pure,
        Except.pure, Except.map]
    · have hdest : Dest.ofMnemonic? (String.ofList letters) = some dest := by
        rw [Dest.ofMnemonic?, String.toList_ofList, Dest.ofLetters?_of_isNamedBy hne hnamed]
      cases jump <;> simp [Spelling.resolve, hne, hdest, Spelling.resolvePart, bind, Except.bind,
        pure, Except.pure, Except.map]

theorem encode_compute_eq_ok_iff {table : SymbolTable} {spelling : Spelling} {word : Word} :
    encode table (.compute spelling) = .ok word ↔
      ∃ c, spelling.resolve = .ok c ∧ c.word = word := by
  refine ⟨exists_word_of_encode, ?_⟩
  rintro ⟨c, hresolve, rfl⟩
  rw [encode, hresolve]
  rfl

/-- A text without blanks has a word exactly if it has one of the four forms, and then the bits of
the destination say which letters it has. -/
theorem encode_readCompact (table : SymbolTable) (text : List Char) :
    ((∃ word, encode table (.compute (readCompact text)) = .ok word) ↔
      ∃ letters, ComputeForm letters text) ∧
    ∀ letters word, ComputeForm letters text →
      encode table (.compute (readCompact text)) = .ok word →
      word.bit 5 = decide ('A' ∈ letters) ∧ word.bit 4 = decide ('D' ∈ letters) ∧
        word.bit 3 = decide ('M' ∈ letters) := by
  refine ⟨⟨?_, ?_⟩, ?_⟩
  · rintro ⟨word, hword⟩
    obtain ⟨c, hresolve, -⟩ := encode_compute_eq_ok_iff.1 hword
    obtain ⟨letters, hnamed, htext⟩ := resolve_readCompact_iff.1 hresolve
    exact ⟨letters, computeForm_iff.2 ⟨⟨hnamed.nodup, hnamed.subset⟩, c.comp, c.jump, htext⟩⟩
  · rintro ⟨letters, hform⟩
    obtain ⟨⟨hnodup, hsubset⟩, comp, jump, htext⟩ := computeForm_iff.1 hform
    obtain ⟨dest, hnamed⟩ := Dest.exists_isNamedBy hnodup hsubset
    exact ⟨_, encode_compute_eq_ok_iff.2
      ⟨⟨dest, comp, jump⟩, resolve_readCompact_iff.2 ⟨letters, hnamed, htext⟩, rfl⟩⟩
  · intro letters word hform hword
    obtain ⟨c, hresolve, rfl⟩ := encode_compute_eq_ok_iff.1 hword
    obtain ⟨letters', hnamed, htext⟩ := resolve_readCompact_iff.1 hresolve
    obtain ⟨⟨-, hsubset⟩, comp, jump, htext'⟩ := computeForm_iff.1 hform
    obtain ⟨rfl, -, -⟩ := writtenParts_inj hnamed.subset hsubset (htext.symm.trans htext')
    obtain ⟨-, ha, hd, hm⟩ := c.word_fields
    exact ⟨ha.trans hnamed.a, hd.trans hnamed.d, hm.trans hnamed.m⟩

/-- An address instruction: `@` and a numeral with a value up to 32767, or `@` and a symbol. -/
inductive AddressForm : List Char → Operand → Prop
  | number {digits : List Char} {value : Word} (h : Denotes digits value.toNat)
      (hle : value.toNat ≤ 32767) : AddressForm ('@' :: digits) (.number value)
  | symbol {name : String} (h : Symbol.IsSymbol name) :
      AddressForm ('@' :: name.toList) (.symbol name)

inductive LabelForm : List Char → String → Prop
  | label {name : String} (h : Symbol.IsSymbol name) :
      LabelForm ('(' :: (name.toList ++ [')'])) name

inductive TooLargeForm : List Char → String → Prop
  | number {digits : String} {value : Nat} (h : Denotes digits.toList value)
      (hlt : 32767 < value) : TooLargeForm ('@' :: digits.toList) digits

theorem isSymbolWord_iff_isSymbol {cs : List Char} :
    Symbol.isSymbolWord cs = true ↔ Symbol.IsSymbol (String.ofList cs) := by
  rw [← Symbol.isSymbol_iff, Symbol.isSymbol, String.toList_ofList]

/-- How what a line says is read, for each way in which it may begin. -/
inductive Reading : List Char → Except Fault (Option (Statement Spelling)) → Prop
  | nothing : Reading [] (.ok none)
  | address {cs : List Char} {operand : Operand} (h : AddressForm cs operand) :
      Reading cs (.ok (some (.instruction (.address operand))))
  | tooLarge {cs : List Char} {token : String} (h : TooLargeForm cs token) :
      Reading cs (.error (.addressOutOfRange token))
  | noOperand {cs : List Char} (hnumber : ∀ value, ¬Denotes cs value)
      (hsymbol : ¬Symbol.IsSymbol (String.ofList cs)) :
      Reading ('@' :: cs) (.error (.invalidSymbol (String.ofList cs)))
  | label {cs : List Char} {name : String} (h : LabelForm cs name) :
      Reading cs (.ok (some (.label name)))
  | noLabel {cs : List Char} (h : ∀ name, ¬LabelForm ('(' :: cs) name) :
      Reading ('(' :: cs) (.error (.invalidSymbol (String.ofList ('(' :: cs))))
  | compute {cs : List Char} (hne : cs ≠ []) (hat : cs.head? ≠ some '@')
      (hparen : cs.head? ≠ some '(') :
      Reading cs (.ok (some (.instruction (.compute (readCompact (cs.filter (!Text.isBlank ·)))))))

theorem readOperand_of_denotes {cs : List Char} {value : Nat} (h : Denotes cs value) :
    readOperand cs = if value ≤ 32767 then .ok (.number (.ofNat value))
      else .error (.addressOutOfRange (String.ofList cs)) := by
  rw [readOperand, Text.decimal?_eq_some_iff.2 h]
  rfl

theorem readOperand_of_not_denotes {cs : List Char} (h : ∀ value, ¬Denotes cs value) :
    readOperand cs = if Symbol.isSymbolWord cs then .ok (.symbol (String.ofList cs))
      else .error (.invalidSymbol (String.ofList cs)) := by
  have hnone : Text.decimal? cs = none :=
    Option.eq_none_iff_forall_ne_some.2 fun value hvalue =>
      h value (Text.decimal?_eq_some_iff.1 hvalue)
  rw [readOperand, hnone]

theorem reading_at (cs : List Char) : Reading ('@' :: cs) (readCode ('@' :: cs)) := by
  rw [readCode]
  by_cases hnumber : ∃ value, Denotes cs value
  · obtain ⟨value, hvalue⟩ := hnumber
    rw [readOperand_of_denotes hvalue]
    by_cases hle : value ≤ 32767
    · have hword : (UInt16.ofNat value).toNat = value :=
        UInt16.toNat_ofNat_of_lt' (Nat.lt_of_le_of_lt hle (by decide))
      rw [if_pos hle]
      exact .address (.number (by rwa [hword]) (by rwa [hword]))
    · rw [if_neg hle]
      rw [← String.toList_ofList (l := cs)] at hvalue
      have hform := TooLargeForm.number hvalue (Nat.lt_of_not_le hle)
      rw [String.toList_ofList] at hform
      exact .tooLarge hform
  · rw [readOperand_of_not_denotes (not_exists.1 hnumber)]
    by_cases hsymbol : Symbol.isSymbolWord cs = true
    · have hform := AddressForm.symbol (isSymbolWord_iff_isSymbol.1 hsymbol)
      rw [String.toList_ofList] at hform
      rw [if_pos hsymbol]
      exact .address hform
    · rw [if_neg hsymbol]
      exact .noOperand (not_exists.1 hnumber) (mt isSymbolWord_iff_isSymbol.2 hsymbol)

theorem reading_paren (cs : List Char) : Reading ('(' :: cs) (readCode ('(' :: cs)) := by
  rw [readCode, readLabel]
  split
  · next h =>
      obtain ⟨hlast, hsymbol⟩ := h
      obtain ⟨front, rfl⟩ := List.getLast?_eq_some_iff.1 hlast
      rw [List.dropLast_concat] at hsymbol ⊢
      have hform := LabelForm.label (isSymbolWord_iff_isSymbol.1 hsymbol)
      rw [String.toList_ofList] at hform
      exact .label hform
  · next h =>
      refine .noLabel fun name hname => h ?_
      cases hname with
      | label hsymbol =>
          rw [List.getLast?_concat, List.dropLast_concat]
          exact ⟨rfl, Symbol.isSymbol_iff.2 hsymbol⟩

theorem reading_readCode (cs : List Char) : Reading cs (readCode cs) := by
  by_cases hat : cs.head? = some '@'
  · obtain ⟨rest, rfl⟩ := List.head?_eq_some_iff.1 hat
    exact reading_at rest
  · by_cases hparen : cs.head? = some '('
    · obtain ⟨rest, rfl⟩ := List.head?_eq_some_iff.1 hparen
      exact reading_paren rest
    · rw [readCode.eq_def]
      split
      · exact .nothing
      · exact absurd rfl hat
      · exact absurd rfl hparen
      · next hne _ _ => exact .compute hne hat hparen

theorem reading_of_readCode_eq {cs : List Char} {result : Except Fault (Option (Statement Spelling))}
    (h : readCode cs = result) : Reading cs result := by
  rw [← h]
  exact reading_readCode cs

theorem readCode_of_addressForm {cs : List Char} {operand : Operand} (h : AddressForm cs operand) :
    readCode cs = .ok (some (.instruction (.address operand))) := by
  cases h with
  | number h hle =>
      rw [readCode, readOperand_of_denotes h, if_pos hle, UInt16.ofNat_toNat]
      rfl
  | @symbol name h =>
      have hword : Symbol.isSymbolWord name.toList = true := Symbol.isSymbol_iff.2 h
      rw [readCode, readOperand_of_isSymbolWord hword, String.ofList_toList]
      rfl

theorem readCode_of_labelForm {cs : List Char} {name : String} (h : LabelForm cs name) :
    readCode cs = .ok (some (.label name)) := by
  cases h with
  | label h =>
      have hword : Symbol.isSymbolWord name.toList = true := Symbol.isSymbol_iff.2 h
      rw [readCode, readLabel, List.getLast?_concat, List.dropLast_concat, if_pos ⟨rfl, hword⟩,
        String.ofList_toList]
      rfl

theorem readCode_of_tooLargeForm {cs : List Char} {token : String} (h : TooLargeForm cs token) :
    readCode cs = .error (.addressOutOfRange token) := by
  cases h with
  | number h hlt =>
      rw [readCode, readOperand_of_denotes h, if_neg (Nat.not_le.2 hlt), String.ofList_toList]
      rfl

theorem readCode_compute {cs : List Char} (hne : cs ≠ []) (hat : cs.head? ≠ some '@')
    (hparen : cs.head? ≠ some '(') : readCode cs =
      .ok (some (.instruction (.compute (readCompact (cs.filter (!Text.isBlank ·)))))) := by
  rw [readCode.eq_def]
  split
  · exact absurd rfl hne
  · exact absurd rfl hat
  · exact absurd rfl hparen
  · rfl

section Readers

variable {cs : List Char}

theorem readCode_eq_nothing_iff : readCode cs = .ok none ↔ cs = [] := by
  refine ⟨fun h => ?_, fun h => by rw [h, readCode]⟩
  cases reading_of_readCode_eq h with
  | nothing => rfl

theorem readCode_eq_address_iff {operand : Operand} :
    readCode cs = .ok (some (.instruction (.address operand))) ↔ AddressForm cs operand := by
  refine ⟨fun h => ?_, readCode_of_addressForm⟩
  cases reading_of_readCode_eq h with
  | address hform => exact hform

theorem readCode_eq_label_iff {name : String} :
    readCode cs = .ok (some (.label name)) ↔ LabelForm cs name := by
  refine ⟨fun h => ?_, readCode_of_labelForm⟩
  cases reading_of_readCode_eq h with
  | label hform => exact hform

theorem readCode_eq_addressOutOfRange_iff {token : String} :
    readCode cs = .error (.addressOutOfRange token) ↔ TooLargeForm cs token := by
  refine ⟨fun h => ?_, readCode_of_tooLargeForm⟩
  cases reading_of_readCode_eq h with
  | tooLarge hform => exact hform

/-- What begins like an address instruction or a label and is neither, nor an address that is too
large, has no symbol where there should be one. -/
theorem exists_invalidSymbol_iff :
    (∃ token, readCode cs = .error (.invalidSymbol token)) ↔
      (cs.head? = some '@' ∨ cs.head? = some '(') ∧ (∀ operand, ¬AddressForm cs operand) ∧
        (∀ name, ¬LabelForm cs name) ∧ ∀ token, ¬TooLargeForm cs token := by
  constructor
  · rintro ⟨token, h⟩
    refine ⟨?_, fun operand hform => ?_, fun name hform => ?_, fun digits hform => ?_⟩
    · cases reading_of_readCode_eq h with
      | noOperand hnumber hsymbol => exact .inl rfl
      | noLabel hlabel => exact .inr rfl
    · rw [readCode_of_addressForm hform] at h
      cases h
    · rw [readCode_of_labelForm hform] at h
      cases h
    · rw [readCode_of_tooLargeForm hform] at h
      cases h
  · rintro ⟨hstart, haddress, hlabel, hlarge⟩
    have hreading := reading_readCode cs
    generalize readCode cs = result at hreading
    cases hreading with
    | nothing => simp at hstart
    | address hform => exact absurd hform (haddress _)
    | tooLarge hform => exact absurd hform (hlarge _)
    | noOperand hnumber hsymbol => exact ⟨_, rfl⟩
    | label hform => exact absurd hform (hlabel _)
    | noLabel hnone => exact ⟨_, rfl⟩
    | compute hne hat hparen =>
        rcases hstart with hstart | hstart
        · exact absurd hstart hat
        · exact absurd hstart hparen

theorem readCode_eq_compute_iff {spelling : Spelling} :
    readCode cs = .ok (some (.instruction (.compute spelling))) ↔
      cs ≠ [] ∧ cs.head? ≠ some '@' ∧ cs.head? ≠ some '(' ∧
        spelling = readCompact (cs.filter (!Text.isBlank ·)) := by
  constructor
  · intro h
    cases reading_of_readCode_eq h with
    | compute hne hat hparen => exact ⟨hne, hat, hparen, rfl⟩
  · rintro ⟨hne, hat, hparen, rfl⟩
    exact readCode_compute hne hat hparen

end Readers

/-- The grammar of lines is exact. What a line says is the trimmed text before its first comment.
The line is ignored exactly if that is empty; it is an address instruction or a label exactly if it
has the form of one; and anything else that begins with `@` or `(` is refused, as an address that is
too large exactly if it is `@` and a numeral with a larger value, and otherwise for its symbol. What
begins with another character is read as a compute instruction. It has a word, in any table of
symbols, exactly if without its blanks it has one of the four forms, and then the bits of the
destination are those of the letters, in whatever order they are. -/
theorem readStatement_iff_grammar (line : String) :
    let code := Text.code line.toList
    let compact := code.filter (!Text.isBlank ·)
    (∀ said, code = said ↔ Text.Says line.toList said) ∧
    (readStatement line = .ok none ↔ code = []) ∧
    (∀ operand, readStatement line = .ok (some (.instruction (.address operand))) ↔
      AddressForm code operand) ∧
    (∀ name, readStatement line = .ok (some (.label name)) ↔ LabelForm code name) ∧
    (∀ token, readStatement line = .error (.addressOutOfRange token) ↔ TooLargeForm code token) ∧
    ((∃ token, readStatement line = .error (.invalidSymbol token)) ↔
      (code.head? = some '@' ∨ code.head? = some '(') ∧ (∀ operand, ¬AddressForm code operand) ∧
        (∀ name, ¬LabelForm code name) ∧ ∀ token, ¬TooLargeForm code token) ∧
    (∀ spelling, readStatement line = .ok (some (.instruction (.compute spelling))) ↔
      code ≠ [] ∧ code.head? ≠ some '@' ∧ code.head? ≠ some '(' ∧
        spelling = readCompact compact) ∧
    ∀ table,
      ((∃ word, encode table (.compute (readCompact compact)) = .ok word) ↔
        ∃ letters, ComputeForm letters compact) ∧
      ∀ letters word, ComputeForm letters compact →
        encode table (.compute (readCompact compact)) = .ok word →
        word.bit 5 = decide ('A' ∈ letters) ∧ word.bit 4 = decide ('D' ∈ letters) ∧
          word.bit 3 = decide ('M' ∈ letters) := by
  intro code compact
  exact ⟨fun said => Text.says_iff.symm, readCode_eq_nothing_iff,
    fun operand => readCode_eq_address_iff, fun name => readCode_eq_label_iff,
    fun token => readCode_eq_addressOutOfRange_iff, exists_invalidSymbol_iff,
    fun spelling => readCode_eq_compute_iff, fun table => encode_readCompact table compact⟩

/-- A destination with its letters in an order that no generated code has. -/
theorem readStatement_iff_grammar_all_letters :
    ∃ word, readStatement " D A M = D|M // everywhere" =
        .ok (some (.instruction (.compute (readCompact "DAM=D|M".toList)))) ∧
      encode .initial (.compute (readCompact "DAM=D|M".toList)) = .ok word ∧
      word.bit 5 = true ∧ word.bit 4 = true ∧ word.bit 3 = true := by
  obtain ⟨-, -, -, -, -, -, hread, hencode⟩ :=
    readStatement_iff_grammar " D A M = D|M // everywhere"
  have hcompact : (Text.code " D A M = D|M // everywhere".toList).filter (!Text.isBlank ·) =
      "DAM=D|M".toList := by decide
  rw [hcompact] at hread hencode
  have hform : ComputeForm "DAM".toList "DAM=D|M".toList :=
    .assign ⟨by decide, by decide, by decide⟩ (show "D|M" ∈ compTexts by decide)
  obtain ⟨word, hword⟩ := (hencode .initial).1.2 ⟨_, hform⟩
  obtain ⟨ha, hd, hm⟩ := (hencode .initial).2 _ word hform hword
  exact ⟨word, (hread _).2 ⟨by decide, by decide, by decide, rfl⟩, hword, ha, hd, hm⟩

/-- Blanks count inside of a label. -/
example : readStatement " ( L ) // loop" = .error (.invalidSymbol "( L )") := by decide +kernel

end Assembly

end HackToolchain
