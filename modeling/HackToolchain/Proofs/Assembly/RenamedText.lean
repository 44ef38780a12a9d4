import Mathlib.Logic.Equiv.Basic
import HackToolchain.Proofs.Assembly.Renaming
import HackToolchain.Proofs.Text.Replace

/-!
# Symbol names do not matter

`renameText r text` is the text with `r symbol` in the place of every symbol that a line loads or
declares; blanks, comments and line endings stay as they are. The lines of the new text are read as
the renamed statements. If `r` keeps the symbols of the text apart, is the identity on predefined
symbols and makes no others predefined, then both texts have the same machine code, or both are
rejected at the same line with faults of the same kind.
-/

namespace HackToolchain

namespace Assembly

open Text (Numbered)

def renameWord (r : String → String) (cs : List Char) : List Char :=
  if Symbol.isSymbolWord cs then (r (String.ofList cs)).toList else cs

def renameCode (r : String → String) : List Char → List Char
  | '@' :: cs => '@' :: renameWord r cs
  | '(' :: cs =>
    if cs.getLast? = some ')' then '(' :: (renameWord r cs.dropLast ++ [')']) else '(' :: cs
  | cs => cs

def renameText (r : String → String) (text : String) : String :=
  String.ofList (Text.mapLines (Text.replaceCode (renameCode r)) text.toList)

def symbolsOfText (text : String) : List String :=
  (statementsOn (Text.lines text)).filterMap Statement.symbol?

/-- A renaming keeps the symbols of a text apart and sends predefined symbols to themselves and others
to symbols that are not predefined. -/
structure IsRenaming (r : String → String) (text : String) : Prop where
  injective : ∀ symbol ∈ symbolsOfText text, ∀ other ∈ symbolsOfText text,
    r symbol = r other → symbol = other
  predefined : ∀ symbol address, Symbol.predefined? symbol = some address → r symbol = symbol
  others : ∀ symbol, Symbol.isSymbol symbol = true → Symbol.predefined? symbol = none →
    Symbol.isSymbol (r symbol) = true ∧ Symbol.predefined? (r symbol) = none

section Reading

variable {r : String → String}

theorem renameWord_of_isSymbolWord {cs : List Char} (h : Symbol.isSymbolWord cs = true) :
    renameWord r cs = (r (String.ofList cs)).toList := by
  rw [renameWord, if_pos h]

theorem renameWord_of_not_isSymbolWord {cs : List Char} (h : Symbol.isSymbolWord cs = false) :
    renameWord r cs = cs := by
  rw [renameWord, h]
  rfl

theorem isSymbol_of_isSymbolWord {cs : List Char} (h : Symbol.isSymbolWord cs = true) :
    Symbol.isSymbol (String.ofList cs) = true := by
  rw [Symbol.isSymbol, String.toList_ofList, h]

/-- The fault of a line that cannot be read is about no symbol. -/
theorem Fault.rename_of_readCode_eq_error {cs : List Char} {fault : Fault}
    (h : readCode cs = .error fault) : fault.rename r = fault := by
  rw [readCode.eq_def] at h
  split at h
  · simp at h
  · next operand =>
      cases hword : Symbol.isSymbolWord operand with
      | true => simp [readOperand_of_isSymbolWord hword, Except.map] at h
      | false =>
          have hsymbol : Symbol.isSymbol (String.ofList operand) = false := by
            rw [Symbol.isSymbol, String.toList_ofList, hword]
          rw [readOperand, hword] at h
          split at h
          · split at h
            · simp [Except.map] at h
            · obtain rfl := Except.error.inj h
              simp [Fault.rename, hsymbol]
          · obtain rfl := Except.error.inj h
            rfl
  · next label =>
      rw [readLabel] at h
      split at h
      · simp [Except.map] at h
      · obtain rfl := Except.error.inj h
        rfl
  · simp at h

theorem isSymbol_of_readOperand {cs : List Char} {name : String}
    (h : readOperand cs = .ok (.symbol name)) : Symbol.isSymbol name = true := by
  rw [readOperand] at h
  split at h
  · split at h <;> simp at h
  · split at h
    · next hword =>
        obtain rfl := Operand.symbol.inj (Except.ok.inj h)
        exact isSymbol_of_isSymbolWord hword
    · simp at h

theorem isSymbol_of_readLabel {cs : List Char} {name : String} (h : readLabel cs = .ok name) :
    Symbol.isSymbol name = true := by
  rw [readLabel] at h
  split at h
  · next hlabel =>
      obtain rfl := Except.ok.inj h
      exact isSymbol_of_isSymbolWord hlabel.2
  · simp at h

theorem isSymbol_of_readCode {cs : List Char} {s : Statement Spelling}
    (h : readCode cs = .ok (some s)) : ∀ symbol ∈ s.symbol?, Symbol.isSymbol symbol = true := by
  intro symbol hsymbol
  rw [readCode.eq_def] at h
  split at h
  · simp at h
  · next operand =>
      cases hread : readOperand operand with
      | error fault => simp [hread, Except.map] at h
      | ok found =>
          obtain rfl : .instruction (.address found) = s := by simpa [hread, Except.map] using h
          cases found with
          | number value => simp [Statement.symbol?, Instruction.symbol?] at hsymbol
          | symbol name =>
              obtain rfl : name = symbol := by
                simpa [Statement.symbol?, Instruction.symbol?] using hsymbol
              exact isSymbol_of_readOperand hread
  · next label =>
      cases hread : readLabel label with
      | error fault => simp [hread, Except.map] at h
      | ok name =>
          obtain rfl : .label name = s := by simpa [hread, Except.map] using h
          obtain rfl : name = symbol := by simpa [Statement.symbol?] using hsymbol
          exact isSymbol_of_readLabel hread
  · obtain rfl := Option.some.inj (Except.ok.inj h)
    simp [Statement.symbol?, Instruction.symbol?] at hsymbol

theorem map_readStatement_lines (text : String) :
    (Text.lines text).map readStatement = ((Text.linesOf text.toList).map Text.code).map readCode := by
  rw [Text.lines, List.map_map, List.map_map]
  refine List.map_congr_left fun line _ => ?_
  rw [Function.comp_apply, Function.comp_apply, readStatement, String.toList_ofList]

theorem rename_of_readText_eq_error {text : String} {fault : Numbered Fault}
    (h : readText text = .error fault) : fault.map (Fault.rename r) = fault := by
  have hscan : (Text.scanLines readStatement 1 (Text.lines text)).fault? = some fault := by
    rw [readText, Text.Scan.toExcept] at h
    split at h
    · next hfault => rw [← Except.error.inj h, ← hfault, Text.scan]
    · simp at h
  obtain ⟨before, line, after, -, -, hline, -⟩ := Text.exists_of_fault?_scanLines hscan
  rw [Numbered.map, Fault.rename_of_readCode_eq_error hline]

variable (hr : ∀ symbol, Symbol.isSymbol symbol = true → Symbol.isSymbol (r symbol) = true)
include hr

theorem isSymbolWord_renameWord (cs : List Char) :
    Symbol.isSymbolWord (renameWord r cs) = Symbol.isSymbolWord cs := by
  cases h : Symbol.isSymbolWord cs with
  | false => rw [renameWord_of_not_isSymbolWord h, h]
  | true =>
      rw [renameWord_of_isSymbolWord h]
      exact hr _ (isSymbol_of_isSymbolWord h)

theorem readOperand_renameWord (cs : List Char) :
    readOperand (renameWord r cs) = (readOperand cs).map (Operand.rename r) := by
  cases h : Symbol.isSymbolWord cs with
  | true =>
      have hnew := (isSymbolWord_renameWord hr cs).trans h
      rw [readOperand_of_isSymbolWord h, readOperand_of_isSymbolWord hnew,
        renameWord_of_isSymbolWord h, String.ofList_toList]
      rfl
  | false =>
      rw [renameWord_of_not_isSymbolWord h, readOperand, h]
      cases Text.decimal? cs with
      | none => rfl
      | some value =>
          by_cases hle : value ≤ MemoryMap.maxAddress.toNat
          · simp [hle, Except.map, Operand.rename]
          · simp [hle, Except.map]

theorem readLabel_renameWord (cs : List Char) :
    readLabel (renameWord r cs ++ [')']) = (readLabel (cs ++ [')'])).map r := by
  have hword := isSymbolWord_renameWord hr cs
  rw [readLabel, readLabel, List.getLast?_concat, List.getLast?_concat, List.dropLast_concat,
    List.dropLast_concat, hword]
  cases h : Symbol.isSymbolWord cs with
  | true => simp [renameWord_of_isSymbolWord h, Except.map]
  | false => simp [renameWord_of_not_isSymbolWord h, Except.map]

theorem readCode_renameCode (cs : List Char) :
    readCode (renameCode r cs) = (readCode cs).map (Option.map (Statement.rename r)) := by
  rw [renameCode.eq_def]
  split
  · next operand =>
      rw [readCode, readCode, readOperand_renameWord hr]
      cases readOperand operand <;> rfl
  · next label =>
      split
      · next hlast =>
          obtain ⟨name, rfl⟩ := List.getLast?_eq_some_iff.1 hlast
          rw [readCode, readCode, List.dropLast_concat, readLabel_renameWord hr]
          cases readLabel (name ++ [')']) <;> rfl
      · next hlast =>
          simp [readCode, readLabel, hlast, Except.map]
  · next hat hparen =>
      rw [readCode.eq_def]
      split
      · rfl
      · next operand => exact absurd rfl (hat operand)
      · next label => exact absurd rfl (hparen label)
      · rfl

theorem renameWord_eq_or_isPlain (cs : List Char) :
    renameWord r cs = cs ∨ ∀ c ∈ renameWord r cs, Text.isPlain c = true := by
  cases h : Symbol.isSymbolWord cs with
  | false => exact .inl (renameWord_of_not_isSymbolWord h)
  | true =>
      refine .inr fun c hc => ?_
      rw [renameWord_of_isSymbolWord h] at hc
      exact isPlain_of_mem_symbol (hr _ (isSymbol_of_isSymbolWord h)) hc

theorem isReplacement_renameCode : Text.IsReplacement (renameCode r) where
  plain cs := by
    rw [renameCode.eq_def]
    split
    · next operand =>
        rcases renameWord_eq_or_isPlain hr operand with hsame | hplain
        · exact .inl (by rw [hsame])
        · exact .inr (List.forall_mem_cons.2 ⟨by decide, hplain⟩)
    · next label =>
        split
        · next hlast =>
            obtain ⟨name, rfl⟩ := List.getLast?_eq_some_iff.1 hlast
            rw [List.dropLast_concat]
            rcases renameWord_eq_or_isPlain hr name with hsame | hplain
            · exact .inl (by rw [hsame])
            · exact .inr (List.forall_mem_cons.2 ⟨by decide, List.forall_mem_append.2
                ⟨hplain, List.forall_mem_singleton.2 (by decide)⟩⟩)
        · exact .inl rfl
    · exact .inl rfl
  nil_iff cs := by
    rw [renameCode.eq_def]
    split
    · simp
    · split <;> simp
    · rfl

theorem map_readStatement_lines_renameText (text : String) :
    (Text.lines (renameText r text)).map readStatement =
      (Text.lines text).map fun line => (readStatement line).map (Option.map (Statement.rename r)) := by
  rw [map_readStatement_lines, renameText, String.toList_ofList,
    (isReplacement_renameCode hr).map_code_linesOf, Text.lines, List.map_map, List.map_map]
  refine List.map_congr_left fun line _ => ?_
  rw [Function.comp_apply, Function.comp_apply, readCode_renameCode hr, readStatement,
    String.toList_ofList]

theorem readText_renameText (text : String) :
    readText (renameText r text) = (readText text).map (renameAll r) := by
  rw [readText, readText, Text.scan, Text.scan,
    Text.scanLines_of_map_eq (map_readStatement_lines_renameText hr text), Text.Scan.toExcept,
    Text.Scan.toExcept]
  cases (Text.scanLines readStatement 1 (Text.lines text)).fault? <;> rfl

theorem statementsOn_lines_renameText (text : String) :
    statementsOn (Text.lines (renameText r text)) =
      (statementsOn (Text.lines text)).map (Statement.rename r) := by
  have hstatements (ls : List String) :
      statementsOn ls = (ls.map readStatement).filterMap (·.toOption.join) := by
    rw [List.filterMap_map]
    rfl
  rw [hstatements, map_readStatement_lines_renameText hr, List.filterMap_map, statementsOn,
    List.map_filterMap]
  refine List.filterMap_congr fun line _ => ?_
  rw [statementOn?, Function.comp_apply]
  rcases readStatement line with fault | ⟨none | s⟩ <;> rfl

theorem symbolsOfText_renameText (text : String) :
    symbolsOfText (renameText r text) = (symbolsOfText text).map r := by
  rw [symbolsOfText, symbolsOfText, statementsOn_lines_renameText hr, List.filterMap_map,
    List.map_filterMap]
  exact List.filterMap_congr fun s _ => s.symbol?_rename r

end Reading

section Assembling

variable {r : String → String} {text : String}

theorem mem_symbolsOfText {statements : List (Numbered (Statement Spelling))}
    (h : readText text = .ok statements) {entry : Numbered (Statement Spelling)}
    (hentry : entry ∈ statements) : ∀ symbol ∈ entry.value.symbol?, symbol ∈ symbolsOfText text := by
  intro symbol hsymbol
  rw [symbolsOfText, ← values_of_readText h]
  exact List.mem_filterMap.2 ⟨entry.value, List.mem_map_of_mem hentry, hsymbol⟩

theorem isSymbol_of_mem_symbolsOfText {symbol : String} (h : symbol ∈ symbolsOfText text) :
    Symbol.isSymbol symbol = true := by
  obtain ⟨s, hs, hsymbol⟩ := List.mem_filterMap.1 h
  obtain ⟨line, -, hline⟩ := List.mem_filterMap.1 hs
  exact isSymbol_of_readCode (readStatement_of_statementOn? hline) symbol hsymbol

variable (h : IsRenaming r text)
include h

theorem IsRenaming.isSymbol (symbol : String) (hsymbol : Symbol.isSymbol symbol = true) :
    Symbol.isSymbol (r symbol) = true := by
  cases hpredefined : Symbol.predefined? symbol with
  | none => exact (h.others symbol hsymbol hpredefined).1
  | some address => rwa [h.predefined symbol address hpredefined]

theorem IsRenaming.renames : Renames r (· ∈ symbolsOfText text) where
  isSymbol _ hsymbol := isSymbol_of_mem_symbolsOfText hsymbol
  injective symbol other hsymbol hother := h.injective symbol hsymbol other hother
  predefined symbol hsymbol := by
    cases hpredefined : Symbol.predefined? symbol with
    | none => exact (h.others symbol (isSymbol_of_mem_symbolsOfText hsymbol) hpredefined).2
    | some address => rw [h.predefined symbol address hpredefined, hpredefined]

/-- A renamed text has the same machine code, or the same fault of the renamed symbol. -/
theorem assemble_renameText_eq :
    assemble (renameText r text) =
      (assemble text).mapError (Numbered.map (Fault.rename r)) := by
  rw [assemble, assemble, readText_renameText h.isSymbol]
  cases hread : readText text with
  | error fault => exact congrArg Except.error (rename_of_readText_eq_error hread).symm
  | ok statements =>
      have hencode := encodeAll_renameAll h.renames fun entry hentry => mem_symbolsOfText hread hentry
      have hbind : encodeAll (renameAll r statements) >>= (fun words => pure ⟨words.toArray⟩) =
          (encodeAll statements >>= fun words => pure (⟨words.toArray⟩ : MachineCode)).mapError
            (Numbered.map (Fault.rename r)) := by
        rw [hencode]
        cases encodeAll statements <;> rfl
      exact hbind

end Assembling

/-- The names of symbols do not matter. When the symbols of a text are renamed then it has the same
machine code as before or is rejected at the same line for a fault of the same kind, which is about
the renamed symbol. -/
theorem assemble_renameText {r : String → String} {text : String} (h : IsRenaming r text) :
    symbolsOfText (renameText r text) = (symbolsOfText text).map r ∧
    (∀ code, assemble (renameText r text) = .ok code ↔ assemble text = .ok code) ∧
    ∀ fault, assemble text = .error fault → ∃ other, assemble (renameText r text) = .error other ∧
      other.line = fault.line ∧ other.value.kind = fault.value.kind ∧
      other.value = fault.value.rename r := by
  refine ⟨symbolsOfText_renameText h.isSymbol text, ?_, ?_⟩
  · intro code
    rw [assemble_renameText_eq h]
    cases assemble text <;> simp [Except.mapError]
  · intro fault hfault
    rw [assemble_renameText_eq h, hfault]
    exact ⟨_, rfl, rfl, fault.value.kind_rename r, rfl⟩

theorem isRenaming_swap {a b : String} (ha : Symbol.isSymbol a = true)
    (hb : Symbol.isSymbol b = true) (ha' : Symbol.predefined? a = none)
    (hb' : Symbol.predefined? b = none) (text : String) : IsRenaming (Equiv.swap a b) text where
  injective _ _ _ _ heq := (Equiv.swap a b).injective heq
  predefined symbol address h := by
    refine Equiv.swap_apply_of_ne_of_ne ?_ ?_
    · rintro rfl
      simp [ha'] at h
    · rintro rfl
      simp [hb'] at h
  others symbol hsymbol h := by
    rw [Equiv.swap_apply_def]
    split
    · exact ⟨hb, hb'⟩
    · split
      · exact ⟨ha, ha'⟩
      · exact ⟨hsymbol, h⟩

/-- A variable and a label that exchange their names: a loop has the same words, and a label that is
declared twice is reported at the same line under the other name. -/
theorem assemble_renameText_swap :
    (∃ code, assemble "@i // i\r\n(LOOP)\n\t@LOOP\n0;JMP" = .ok code ∧
      assemble "@LOOP // i\r\n(i)\n\t@i\n0;JMP" = .ok code) ∧
    assemble "(LOOP)\n@i\n(LOOP)" = .error ⟨3, .duplicateLabel "LOOP"⟩ ∧
    ∃ fault, assemble "(i)\n@LOOP\n(i)" = .error fault ∧ fault.line = 3 ∧
      fault.value = .duplicateLabel "i" := by
  have hswap := isRenaming_swap (show Symbol.isSymbol "i" = true by decide)
    (show Symbol.isSymbol "LOOP" = true by decide) (by decide) (by decide)
  obtain ⟨-, hcode, -⟩ := assemble_renameText (hswap "@i // i\r\n(LOOP)\n\t@LOOP\n0;JMP")
  obtain ⟨-, -, hfault⟩ := assemble_renameText (hswap "(LOOP)\n@i\n(LOOP)")
  have hloop : assemble "@i // i\r\n(LOOP)\n\t@LOOP\n0;JMP" =
      .ok ⟨#[16, 1, 0xEA87]⟩ := by decide +kernel
  have htwice : assemble "(LOOP)\n@i\n(LOOP)" = .error ⟨3, .duplicateLabel "LOOP"⟩ := by
    decide +kernel
  have hnamed : renameText (Equiv.swap "i" "LOOP") "@i // i\r\n(LOOP)\n\t@LOOP\n0;JMP" =
      "@LOOP // i\r\n(i)\n\t@i\n0;JMP" := by decide +kernel
  have hnamed' : renameText (Equiv.swap "i" "LOOP") "(LOOP)\n@i\n(LOOP)" = "(i)\n@LOOP\n(i)" := by
    decide +kernel
  refine ⟨⟨_, hloop, hnamed ▸ (hcode _).2 hloop⟩, htwice, ?_⟩
  obtain ⟨other, hother, hline, -, hvalue⟩ := hfault _ htwice
  exact ⟨other, hnamed' ▸ hother, hline, hvalue⟩

end Assembly

end HackToolchain
