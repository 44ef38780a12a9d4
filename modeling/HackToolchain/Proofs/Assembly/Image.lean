import HackToolchain.Proofs.Assembly.Link
import HackToolchain.Proofs.Assembly.Spelling

/-!
# The image of a program

An image is what a generated program looks like in ROM: its statements, and for each instruction
among them, in order, one word. The word of an address instruction is its number or the address of
its symbol, that of a compute instruction is its word. The text of generated lines assembles to the
image of their statements, and it does so exactly when they link and every symbol has an address.
-/

namespace HackToolchain

namespace Assembly

open Text (Numbered)

/-- What an address instruction loads when `address?` says where symbols lie. -/
def Operand.value? (address? : String → Option Word) : Operand → Option Word
  | number value => some value
  | symbol name => address? name

/-- The word of an instruction when `address?` says where symbols lie. -/
def Instruction.word? (address? : String → Option Word) : Instruction Computation → Option Word
  | address operand => (operand.value? address?).filter (· ≤ MemoryMap.maxAddress)
  | compute c => some c.word

/-- A program in ROM. -/
structure Image where
  statements : List (Statement Computation)
  rom : Array Word
  labels_nodup : (labels statements).Nodup
  labels_free : ∀ label ∈ labels statements, Symbol.predefined? label = none
  size_le : codeSize statements ≤ MemoryMap.romSize
  encoded : (code statements).map (Instruction.word? (address? statements)) =
    rom.toList.map some

def Line.statement? : Line → Option (Statement Computation)
  | comment _ => none
  | statement s => some s

/-- A line that can be written: a comment without line endings, or a statement that can be
written. -/
def Line.IsWritable : Line → Prop
  | comment text => ∀ c ∈ text.toList, Text.isInline c = true
  | statement s => s.IsWritable

theorem Line.isInline_of_mem_render {line : Line} (h : line.IsWritable) {c : Char}
    (hc : c ∈ line.render.toList) : Text.isInline c = true := by
  cases line with
  | comment text =>
      rw [Line.render, String.toList_append, List.mem_append] at hc
      rcases hc with hc | hc
      · revert c
        decide
      · exact h c hc
  | statement s => exact Text.isInline_of_isPlain (Statement.isPlain_of_mem_render h hc)

theorem readStatement_line {line : Line} (h : line.IsWritable) :
    readStatement line.render = .ok (line.statement?.map Statement.spelled) := by
  cases line with
  | comment text => exact readStatement_comment text
  | statement s => exact readStatement_render h

theorem lines_toText {ls : List Line} (h : ∀ line ∈ ls, line.IsWritable) :
    Text.lines (Listing.ofLines ls.toArray).toText = ls.map Line.render := by
  have hlines : (Listing.ofLines ls.toArray).lines.toList = ls.map Line.render := by
    simp [Listing.ofLines]
  rw [Text.lines, Listing.toList_toText, hlines]
  have hflat : (ls.map Line.render).flatMap (fun line => line.toList ++ ['\n']) =
      (ls.map fun line => line.render.toList).flatMap fun l => l ++ ['\n'] := by
    simp [List.flatMap_map]
  rw [hflat, Text.linesOf_flatMap_lineFeed, List.map_map]
  · congr 1
    funext line
    exact String.ofList_toList
  · intro l hl c hc
    obtain ⟨line, hline, rfl⟩ := List.mem_map.1 hl
    exact Line.isInline_of_mem_render (h line hline) hc

theorem exists_scanLines {ls : List Line} (h : ∀ line ∈ ls, line.IsWritable) (first : Nat) :
    ∃ statements : List (Numbered (Statement Spelling)),
      Text.scanLines readStatement first (ls.map Line.render) = ⟨statements, none⟩ ∧
      values statements = (ls.filterMap Line.statement?).map Statement.spelled := by
  induction ls generalizing first with
  | nil => exact ⟨[], rfl, rfl⟩
  | cons line ls ih =>
      obtain ⟨rest, hscan, hvalues⟩ := ih (fun l hl => h l (List.mem_cons_of_mem _ hl)) (first + 1)
      rw [List.map_cons, Text.scanLines_cons, readStatement_line (h line List.mem_cons_self), hscan]
      cases line with
      | comment text => exact ⟨rest, rfl, hvalues⟩
      | statement s => exact ⟨⟨first, s.spelled⟩ :: rest, rfl, congrArg _ hvalues⟩

theorem exists_readText {ls : List Line} (h : ∀ line ∈ ls, line.IsWritable) :
    ∃ statements, readText (Listing.ofLines ls.toArray).toText = .ok statements ∧
      values statements = (ls.filterMap Line.statement?).map Statement.spelled := by
  obtain ⟨statements, hscan, hvalues⟩ := exists_scanLines h 1
  refine ⟨statements, ?_, hvalues⟩
  rw [readText, Text.scan, lines_toText h, hscan]
  rfl

section Spelled

variable (statements : List (Statement Computation))

theorem code_map_spelled :
    code (statements.map Statement.spelled) = (code statements).map Instruction.spelled := by
  induction statements with
  | nil => rfl
  | cons s rest ih =>
      cases s with
      | instruction i => exact congrArg _ ih
      | label name => exact ih

theorem codeSize_map_spelled :
    codeSize (statements.map Statement.spelled) = codeSize statements := by
  rw [codeSize, code_map_spelled, List.length_map, codeSize]

theorem labels_map_spelled : labels (statements.map Statement.spelled) = labels statements := by
  induction statements with
  | nil => rfl
  | cons s rest ih =>
      cases s with
      | instruction i => exact ih
      | label name => exact congrArg _ ih

theorem labelAddress?_map_spelled (name : String) :
    labelAddress? name (statements.map Statement.spelled) = labelAddress? name statements := by
  induction statements with
  | nil => rfl
  | cons s rest ih =>
      cases s with
      | instruction i => exact congrArg (Option.map (· + 1)) ih
      | label other => simp [Statement.spelled, labelAddress?, ih]

/-- Symbols lie in the same places however compute instructions are given. -/
theorem address?_map_spelled :
    address? (statements.map Statement.spelled) = address? statements := by
  have hsymbol : (Instruction.symbol? ∘ Instruction.spelled) = Instruction.symbol? := by
    funext i
    cases i with
    | address operand => cases operand <;> rfl
    | compute c => rfl
  funext symbol
  simp only [address?, variableSymbols, labelAddress?_map_spelled, code_map_spelled,
    List.filterMap_map, hsymbol]

end Spelled

theorem encodeLine_eq_ok_iff (table : SymbolTable) {entry : Numbered (Instruction Spelling)}
    {i : Instruction Computation} (hvalue : entry.value = i.spelled) (h : i.IsWritable)
    (word : Word) : encodeLine table entry = .ok word ↔ i.word? table.find? = some word := by
  rw [encodeLine, hvalue]
  cases i with
  | compute c =>
      simp [Instruction.spelled, encode, c.resolve_spelling, Except.map, Except.mapError,
        Instruction.word?]
  | address operand =>
      cases operand with
      | number value =>
          have hle : value ≤ MemoryMap.maxAddress := h
          simp [Instruction.spelled, encode, Except.mapError, Instruction.word?, Operand.value?,
            Option.filter, hle]
      | symbol name =>
          cases hfind : table.find? name with
          | none =>
              simp [Instruction.spelled, encode, Except.mapError, Instruction.word?,
                Operand.value?, hfind]
          | some address =>
              by_cases hle : address ≤ MemoryMap.maxAddress
              · simp [Instruction.spelled, encode, Except.mapError, Instruction.word?,
                  Operand.value?, Option.filter, hfind, hle]
              · simp [Instruction.spelled, encode, Except.mapError, Instruction.word?,
                  Operand.value?, Option.filter, hfind, hle]

theorem mapM_encodeLine_eq_ok_iff (table : SymbolTable)
    {entries : List (Numbered (Instruction Spelling))} {is : List (Instruction Computation)}
    (hvalues : entries.map (·.value) = is.map Instruction.spelled)
    (h : ∀ i ∈ is, i.IsWritable) (words : List Word) :
    entries.mapM (encodeLine table) = .ok words ↔
      is.map (Instruction.word? table.find?) = words.map some := by
  induction is generalizing entries words with
  | nil =>
      obtain rfl : entries = [] := by simpa using hvalues
      cases words <;> simp [pure, Except.pure]
  | cons i is ih =>
      obtain ⟨entry, rest, rfl, hentry, hrest⟩ := List.map_eq_cons_iff.1 hvalues
      have hi := encodeLine_eq_ok_iff table hentry (h i List.mem_cons_self)
      have htail := ih hrest fun j hj => h j (List.mem_cons_of_mem _ hj)
      rw [List.mapM_cons, List.map_cons]
      cases words with
      | nil =>
          cases encodeLine table entry <;> cases rest.mapM (encodeLine table) <;>
            simp [bind, Except.bind, pure, Except.pure]
      | cons word words =>
          rw [List.map_cons, List.cons.injEq, ← hi, ← htail]
          cases encodeLine table entry <;> cases rest.mapM (encodeLine table) <;>
            simp [bind, Except.bind, pure, Except.pure]

def statementsOf (ls : List Line) : List (Statement Computation) :=
  ls.filterMap Line.statement?

@[simp] theorem statementsOf_nil : statementsOf [] = [] := rfl

@[simp] theorem statementsOf_comment (text : String) (ls : List Line) :
    statementsOf (.comment text :: ls) = statementsOf ls := rfl

@[simp] theorem statementsOf_statement (s : Statement Computation) (ls : List Line) :
    statementsOf (.statement s :: ls) = s :: statementsOf ls := rfl

@[simp] theorem statementsOf_append (before after : List Line) :
    statementsOf (before ++ after) = statementsOf before ++ statementsOf after :=
  List.filterMap_append

@[simp] theorem statementsOf_map_statement (block : List (Statement Computation)) :
    statementsOf (block.map .statement) = block := by
  induction block with
  | nil => rfl
  | cons s block ih => rw [List.map_cons, statementsOf_statement, ih]

theorem isWritable_of_mem_code {ls : List Line} (h : ∀ line ∈ ls, line.IsWritable)
    {i : Instruction Computation} (hi : i ∈ code (statementsOf ls)) : i.IsWritable := by
  obtain ⟨s, hs, hcode⟩ := List.mem_filterMap.1 hi
  obtain ⟨line, hline, hstatement⟩ := List.mem_filterMap.1 hs
  have hwritable := h line hline
  cases line with
  | comment text => simp [Line.statement?] at hstatement
  | statement s' =>
      cases s with
      | label name => simp [Statement.instruction?] at hcode
      | instruction j =>
          obtain rfl : s' = .instruction j := by simpa [Line.statement?] using hstatement
          obtain rfl : j = i := by simpa [Statement.instruction?] using hcode
          exact hwritable

theorem find?_of_symbols {ls : List Line} (h : ∀ line ∈ ls, line.IsWritable)
    {table : SymbolTable} (htable : symbols (Listing.ofLines ls.toArray).toText = .ok table) :
    table.find? = address? (statementsOf ls) := by
  obtain ⟨statements, hread, hvalues⟩ := exists_readText h
  rw [symbols, hread] at htable
  funext symbol
  rw [find?_of_link htable, hvalues, address?_map_spelled]
  rfl

/-- The text of lines assembles to some words exactly when their statements link and have these
words. -/
theorem assemble_eq_ok_iff {ls : List Line} (h : ∀ line ∈ ls, line.IsWritable)
    (code : MachineCode) :
    assemble (Listing.ofLines ls.toArray).toText = .ok code ↔
      (labels (statementsOf ls)).Nodup ∧
      (∀ label ∈ labels (statementsOf ls), Symbol.predefined? label = none) ∧
      codeSize (statementsOf ls) ≤ MemoryMap.romSize ∧
      (Assembly.code (statementsOf ls)).map (Instruction.word? (address? (statementsOf ls))) =
        code.words.toList.map some := by
  obtain ⟨statements, hread, hvalues⟩ := exists_readText h
  have hvalues : values statements = (statementsOf ls).map Statement.spelled := hvalues
  have hlink := exists_link_iff statements
  rw [hvalues, labels_map_spelled, codeSize_map_spelled] at hlink
  have hcode : (instructions statements).map (·.value) =
      (Assembly.code (statementsOf ls)).map Instruction.spelled := by
    rw [map_value_instructions, hvalues, code_map_spelled]
  rw [assemble, hread]
  cases htable : link statements with
  | error fault =>
      have hno : ¬∃ table, link statements = .ok table := by simp [htable]
      rw [hlink] at hno
      simp only [bind, Except.bind, encodeAll, htable, reduceCtorEq, false_iff]
      rintro ⟨hnodup, hfree, hsize, -⟩
      exact hno ⟨hnodup, hfree, hsize⟩
  | ok table =>
      obtain ⟨hnodup, hfree, hsize⟩ := hlink.1 ⟨table, htable⟩
      have hfind : table.find? = address? (statementsOf ls) := by
        funext symbol
        rw [find?_of_link htable, hvalues, address?_map_spelled]
      have hwords := mapM_encodeLine_eq_ok_iff table hcode
        (fun i hi => isWritable_of_mem_code h hi) code.words.toList
      rw [hfind] at hwords
      simp only [hnodup, hsize, hwords.symm, true_and, bind, Except.bind, encodeAll, htable]
      cases (instructions statements).mapM (encodeLine table) with
      | error fault => simp
      | ok words =>
          obtain ⟨coded⟩ := code
          simp only [pure, Except.pure, Except.ok.injEq, MachineCode.mk.injEq]
          constructor
          · rintro rfl
            exact ⟨hfree, rfl⟩
          · rintro ⟨-, hwords⟩
            rw [hwords, Array.toArray_toList]

theorem exists_symbols_of_assemble {text : String} {code : MachineCode}
    (h : assemble text = .ok code) : ∃ table, symbols text = .ok table := by
  obtain ⟨statements, table, hread, hlink, -⟩ := exists_link_of_assemble h
  refine ⟨table, ?_⟩
  rw [symbols, hread]
  exact hlink

theorem exists_image {ls : List Line} (h : ∀ line ∈ ls, line.IsWritable) {code : MachineCode}
    (hcode : assemble (Listing.ofLines ls.toArray).toText = .ok code) :
    ∃ image : Image, image.statements = statementsOf ls ∧ image.rom = code.words := by
  obtain ⟨hnodup, hfree, hsize, hwords⟩ := (assemble_eq_ok_iff h code).1 hcode
  exact ⟨⟨statementsOf ls, code.words, hnodup, hfree, hsize, hwords⟩, rfl, rfl⟩

end Assembly

end HackToolchain
