import HackToolchain.Proofs.Assembly.Reading

/-!
# The words of a text

A text that assembles has one word for each instruction on its lines. Which word that is can be told
from the lines: a number is its own word, a predefined symbol has its fixed address, a label the
number of instructions on the lines before its declaration, and a variable a cell that is given by
how many other variables are used before its own first use. A compute instruction is put together
from the bits of its three parts.
-/

namespace HackToolchain

namespace Assembly

open Text (Numbered)

def symbolsOn (ls : List String) : List String :=
  (instructionsOn ls).filterMap Instruction.symbol?

theorem mem_symbolsOn {symbol : String} {ls : List String} :
    symbol ∈ symbolsOn ls ↔ .address (.symbol symbol) ∈ instructionsOn ls := by
  rw [symbolsOn, List.mem_filterMap]
  constructor
  · rintro ⟨⟨value | name⟩ | spelling, hi, hsymbol⟩
    · simp [Instruction.symbol?] at hsymbol
    · obtain rfl : name = symbol := Option.some.inj hsymbol
      exact hi
    · simp [Instruction.symbol?] at hsymbol
  · exact fun hi => ⟨_, hi, rfl⟩

/-- Whether a symbol is a variable on lines: it is neither predefined nor declared as a label. -/
def isVariableOn (ls : List String) (symbol : String) : Bool :=
  (Symbol.predefined? symbol).isNone && (labelAddress? symbol (statementsOn ls)).isNone

theorem isVariableOn_iff {ls : List String} {symbol : String} :
    isVariableOn ls symbol = true ↔ Symbol.predefined? symbol = none ∧
      ∀ line ∈ ls, statementOn? line ≠ some (.label symbol) := by
  rw [isVariableOn, Bool.and_eq_true, Option.isNone_iff_eq_none, Option.isNone_iff_eq_none,
    labelAddress?_eq_none_iff, mem_labels_statementsOn]
  simp only [not_exists, not_and, ne_eq]

/-- The variables that are used before the first use of a symbol. -/
def variablesBefore (ls : List String) (symbol : String) : List String :=
  (((symbolsOn ls).takeWhile (· != symbol)).filter (isVariableOn ls)).eraseDups

theorem encode_of_encodeLine {table : SymbolTable} {entry : Numbered (Instruction Spelling)}
    {word : Word} (h : encodeLine table entry = .ok word) : encode table entry.value = .ok word := by
  rw [encodeLine] at h
  cases hencode : encode table entry.value with
  | error fault => simp [hencode, Except.mapError] at h
  | ok word' => simpa [hencode, Except.mapError] using h

theorem find?_of_encode {table : SymbolTable} {symbol : String} {word : Word}
    (h : encode table (.address (.symbol symbol)) = .ok word) :
    table.find? symbol = some word ∧ word ≤ MemoryMap.maxAddress := by
  rw [encode] at h
  split at h
  · simp at h
  · next address hfound =>
      split at h
      · next hle =>
          obtain rfl := Except.ok.inj h
          exact ⟨hfound, hle⟩
      · simp at h

theorem exists_word_of_encode {table : SymbolTable} {spelling : Spelling} {word : Word}
    (h : encode table (.compute spelling) = .ok word) :
    ∃ c, spelling.resolve = .ok c ∧ c.word = word := by
  cases hresolve : spelling.resolve with
  | error fault => simp [encode, hresolve, Except.map] at h
  | ok c => exact ⟨c, rfl, by simpa [encode, hresolve, Except.map] using h⟩

section Lines

variable {ls : List String}

theorem getElem?_variableSymbols {symbol : String} (hvariable : isVariableOn ls symbol = true)
    (h : symbol ∈ symbolsOn ls) :
    (variableSymbols (statementsOn ls))[(variablesBefore ls symbol).length]? = some symbol := by
  -- cut the uses at the first one of this symbol
  obtain ⟨after, hused⟩ := exists_eq_takeWhile_append h
  have hnew : symbol ∉ ((symbolsOn ls).takeWhile (· != symbol)).filter (isVariableOn ls) := by
    intro hmem
    have hne := List.all_eq_true.1 List.all_takeWhile _ (List.mem_filter.1 hmem).1
    simp at hne
  have hvariables : variableSymbols (statementsOn ls) =
      ((symbolsOn ls).filter (isVariableOn ls)).eraseDups := rfl
  rw [hvariables, hused, List.filter_append, List.filter_cons_of_pos hvariable]
  exact getElem?_eraseDups_append_cons hnew _

/-- A variable has the cell that is counted by the variables used before it. -/
theorem toNat_address_of_isVariableOn {symbol : String} {word : Word}
    (hvariable : isVariableOn ls symbol = true) (hused : symbol ∈ symbolsOn ls)
    (h : address? (statementsOn ls) symbol = some word) :
    word.toNat = 16 + (variablesBefore ls symbol).length := by
  obtain ⟨hpredefined, hlines⟩ := isVariableOn_iff.1 hvariable
  have hlabel : symbol ∉ labels (statementsOn ls) := by
    rw [mem_labels_statementsOn]
    rintro ⟨line, hline, heq⟩
    exact hlines line hline heq
  obtain ⟨place, hlt, rfl, hplace⟩ := exists_variableCell hpredefined hlabel h
  have hbefore := getElem?_variableSymbols hvariable hused
  obtain ⟨hlength, -⟩ := List.getElem?_eq_some_iff.1 hplace
  have hsame := (List.getElem?_inj hlength (nodup_eraseDups _)).1 (hplace.trans hbefore.symm)
  rw [toNat_variableCell hlt, hsame]

end Lines

/-- What a table finds when the statements of a text are linked, and what these have to satisfy. -/
theorem linked_of_readText {text : String} {statements : List (Numbered (Statement Spelling))}
    {table : SymbolTable} (hread : readText text = .ok statements)
    (hlink : link statements = .ok table) :
    (∀ symbol, table.find? symbol = address? (statementsOn (Text.lines text)) symbol) ∧
      (labels (statementsOn (Text.lines text))).Nodup ∧
      (∀ label ∈ labels (statementsOn (Text.lines text)), Symbol.predefined? label = none) ∧
      codeSize (statementsOn (Text.lines text)) ≤ MemoryMap.romSize := by
  rw [← values_of_readText hread]
  exact ⟨find?_of_link hlink, (exists_link_iff statements).1 ⟨table, hlink⟩⟩

/-- What assembles has the encodings of the instructions on its lines as its words, with the symbols
where the statements on the lines have them. -/
theorem exists_encode_of_assemble {text : String} {code : MachineCode}
    (h : assemble text = .ok code) :
    ∃ table : SymbolTable,
      (∀ symbol, table.find? symbol = address? (statementsOn (Text.lines text)) symbol) ∧
      (labels (statementsOn (Text.lines text))).Nodup ∧
      codeSize (statementsOn (Text.lines text)) ≤ MemoryMap.romSize ∧
      code.size = (instructionsOn (Text.lines text)).length ∧
      ∀ (k : Nat) (i : Instruction Spelling), (instructionsOn (Text.lines text))[k]? = some i →
        ∃ word, code.words[k]? = some word ∧ encode table i = .ok word := by
  obtain ⟨statements, table, hread, hlink, hwords⟩ := exists_link_of_assemble h
  obtain ⟨hfind, hnodup, -, hsize⟩ := linked_of_readText hread hlink
  have hinstructions : (instructions statements).map (·.value) =
      instructionsOn (Text.lines text) := by
    rw [map_value_instructions, values_of_readText hread, instructionsOn]
  obtain ⟨hlength, hencoded⟩ := getElem?_of_mapM_eq_ok hwords
  have hcount : code.size = (instructionsOn (Text.lines text)).length := by
    rw [← hinstructions, List.length_map, ← hlength, Array.length_toList, MachineCode.size]
  refine ⟨table, hfind, hnodup, hsize, hcount, fun k i hi => ?_⟩
  obtain ⟨hlt, -⟩ := List.getElem?_eq_some_iff.1 hi
  have hfound := Array.getElem?_eq_getElem (Nat.lt_of_lt_of_eq hlt hcount.symm)
  rw [← hinstructions, List.getElem?_map] at hi
  obtain ⟨entry, hentry, rfl⟩ := Option.map_eq_some_iff.1 hi
  exact ⟨_, hfound, encode_of_encodeLine (hencoded k entry _ hentry (by simp))⟩

end Assembly

end HackToolchain
