import HackToolchain.Proofs.Assembly.Link
import HackToolchain.Proofs.Assembly.Parts

/-!
# Statements with other symbols

`Statement.rename r` puts `r symbol` in the place of a symbol. If `r` keeps the symbols that
statements mention apart, and predefined symbols with their addresses, then the statements and the
renamed ones are linked in step: at every time the second table finds for `r symbol` what the first
one finds for `symbol`, and as many cells are allocated. So they are encoded as the same words, or
rejected at the same line for the same fault of the renamed symbol.
-/

namespace HackToolchain

namespace Assembly

open Text (Numbered)

variable {κ : Type}

def Operand.rename (r : String → String) : Operand → Operand
  | number value => number value
  | symbol name => symbol (r name)

def Instruction.rename (r : String → String) : Instruction κ → Instruction κ
  | address operand => address (operand.rename r)
  | compute computation => compute computation

def Statement.rename (r : String → String) : Statement κ → Statement κ
  | instruction i => instruction (i.rename r)
  | label name => label (r name)

def Statement.symbol? : Statement κ → Option String
  | instruction i => i.symbol?
  | label name => some name

@[simp] theorem Instruction.symbol?_rename (r : String → String) (i : Instruction κ) :
    (i.rename r).symbol? = i.symbol?.map r := by
  rcases i with ⟨value | name⟩ | computation <;> rfl

@[simp] theorem Statement.symbol?_rename (r : String → String) (s : Statement κ) :
    (s.rename r).symbol? = s.symbol?.map r := by
  cases s with
  | instruction i => exact i.symbol?_rename r
  | label name => rfl

/-- Renames the symbol that a fault is about. An address that is too large may be a number, which is
no symbol. -/
def Fault.rename (r : String → String) : Fault → Fault
  | addressOutOfRange token => addressOutOfRange (if Symbol.isSymbol token then r token else token)
  | duplicateLabel label => duplicateLabel (r label)
  | outOfVariables symbol => outOfVariables (r symbol)
  | fault => fault

inductive FaultKind
  | unknownMnemonic
  | invalidSymbol
  | addressOutOfRange
  | duplicateLabel
  | programTooLarge
  | outOfVariables
  deriving Repr, DecidableEq

def Fault.kind : Fault → FaultKind
  | unknownMnemonic .. => .unknownMnemonic
  | invalidSymbol _ => .invalidSymbol
  | addressOutOfRange _ => .addressOutOfRange
  | duplicateLabel _ => .duplicateLabel
  | programTooLarge => .programTooLarge
  | outOfVariables _ => .outOfVariables

@[simp] theorem Fault.kind_rename (r : String → String) (fault : Fault) :
    (fault.rename r).kind = fault.kind := by
  cases fault <;> rfl

/-- A renaming of symbols keeps them apart, and predefined ones with their addresses. -/
structure Renames (r : String → String) (used : String → Prop) : Prop where
  isSymbol : ∀ symbol, used symbol → Symbol.isSymbol symbol = true
  injective : ∀ symbol other, used symbol → used other → r symbol = r other → symbol = other
  predefined : ∀ symbol, used symbol → Symbol.predefined? (r symbol) = Symbol.predefined? symbol

/-- A table finds for renamed symbols what another one finds for the symbols. -/
structure SymbolTable.Agree (r : String → String) (used : String → Prop)
    (table renamed : SymbolTable) : Prop where
  find? : ∀ symbol, used symbol → renamed.find? (r symbol) = table.find? symbol
  allocated : renamed.allocated = table.allocated

section Renames

variable {r : String → String} {used : String → Prop}

namespace SymbolTable.Agree

variable {table renamed : SymbolTable}

theorem contains (h : Agree r used table renamed) {symbol : String} (hsymbol : used symbol) :
    renamed.contains (r symbol) = table.contains symbol := by
  rw [SymbolTable.contains, SymbolTable.contains, h.find? symbol hsymbol]

variable (hr : Renames r used)
include hr

theorem initial : Agree r used .initial .initial where
  find? symbol hsymbol := by
    rw [find?_initial, find?_initial, hr.predefined symbol hsymbol]
  allocated := rfl

theorem insert (h : Agree r used table renamed) {symbol : String} (hsymbol : used symbol)
    (hnew : table.contains symbol = false) (address : Word) (count : Nat) :
    Agree r used ⟨table.bindings.insert symbol address, count⟩
      ⟨renamed.bindings.insert (r symbol) address, count⟩ where
  find? other hother := by
    have hsame : r other = r symbol ↔ other = symbol :=
      ⟨hr.injective other symbol hother hsymbol, congrArg r⟩
    rw [find?_insert hnew, find?_insert ((h.contains hsymbol).trans hnew), h.find? other hother]
    simp only [hsame]
  allocated := rfl

theorem allocate (h : Agree r used table renamed) {symbol : String} (hsymbol : used symbol) :
    Agree r used (table.allocate symbol) (renamed.allocate (r symbol)) := by
  have hroom : renamed.hasRoom = table.hasRoom := by rw [hasRoom, hasRoom, h.allocated]
  have hcell : renamed.nextVariable = table.nextVariable := by
    rw [nextVariable, nextVariable, h.allocated]
  rw [SymbolTable.allocate, SymbolTable.allocate, h.contains hsymbol, hroom, hcell, h.allocated]
  split
  · exact h
  · next hnew =>
      rw [Bool.or_eq_true, not_or, Bool.not_eq_true] at hnew
      exact h.insert hr hsymbol hnew.1 _ _

theorem foldl_allocate {symbols : List String} (hsymbols : ∀ symbol ∈ symbols, used symbol)
    (h : Agree r used table renamed) :
    Agree r used (symbols.foldl SymbolTable.allocate table)
      ((symbols.map r).foldl SymbolTable.allocate renamed) := by
  induction symbols generalizing table renamed with
  | nil => exact h
  | cons symbol symbols ih =>
      obtain ⟨hsymbol, hsymbols⟩ := List.forall_mem_cons.1 hsymbols
      exact ih hsymbols (h.allocate hr hsymbol)

end SymbolTable.Agree

open SymbolTable (Agree)

/-- Two tables that agree, or a fault and the same one for renamed symbols. -/
inductive AgreeOrFail (r : String → String) (used : String → Prop) :
    Except (Numbered Fault) SymbolTable → Except (Numbered Fault) SymbolTable → Prop
  | agree {table renamed : SymbolTable} (h : Agree r used table renamed) :
      AgreeOrFail r used (.ok table) (.ok renamed)
  | fail (fault : Numbered Fault) :
      AgreeOrFail r used (.error fault) (.error (fault.map (Fault.rename r)))

def renameAll (r : String → String) (statements : List (Numbered (Statement κ))) :
    List (Numbered (Statement κ)) :=
  statements.map (Numbered.map (Statement.rename r))

theorem instructions_renameAll (r : String → String) (statements : List (Numbered (Statement κ))) :
    instructions (renameAll r statements) =
      (instructions statements).map (Numbered.map (Instruction.rename r)) := by
  rw [instructions, instructions, renameAll, List.filterMap_map, List.map_filterMap]
  refine List.filterMap_congr fun entry _ => ?_
  obtain ⟨line, i | name⟩ := entry <;> rfl

section Statements

variable {statements : List (Numbered (Statement κ))}

theorem used_of_mem_instructions
    (hused : ∀ entry ∈ statements, ∀ symbol ∈ entry.value.symbol?, used symbol)
    {entry : Numbered (Instruction κ)} (h : entry ∈ instructions statements) :
    ∀ symbol ∈ entry.value.symbol?, used symbol := by
  obtain ⟨⟨line, s⟩, hmem, hentry⟩ := List.mem_filterMap.1 h
  cases s with
  | label name => simp [Statement.instruction?] at hentry
  | instruction i =>
      obtain rfl : ⟨line, i⟩ = entry := by simpa [Statement.instruction?] using hentry
      exact hused _ hmem

variable (hr : Renames r used)
  (hused : ∀ entry ∈ statements, ∀ symbol ∈ entry.value.symbol?, used symbol)
include hr hused

/-- The first pass goes in step over statements and over the renamed ones. -/
theorem agreeOrFail_bindLabels (address : Nat) {table renamed : SymbolTable}
    (h : Agree r used table renamed) :
    AgreeOrFail r used (bindLabels address table statements)
      (bindLabels address renamed (renameAll r statements)) := by
  induction statements generalizing address table renamed with
  | nil => exact .agree h
  | cons entry rest ih =>
      obtain ⟨hentry, hrest⟩ := List.forall_mem_cons.1 hused
      obtain ⟨line, s⟩ := entry
      cases s with
      | label name =>
          -- the label is bound in both tables or in neither
          have hname : used name := hentry name rfl
          have hcontains := h.contains hname
          cases hc : table.contains name with
          | true =>
              rw [hc] at hcontains
              simp only [renameAll, List.map_cons, Numbered.map, Statement.rename, bindLabels,
                SymbolTable.insertLabel?_eq_none_iff.2 hc,
                SymbolTable.insertLabel?_eq_none_iff.2 hcontains]
              exact .fail ⟨line, .duplicateLabel name⟩
          | false =>
              rw [hc] at hcontains
              simp only [renameAll, List.map_cons, Numbered.map, Statement.rename, bindLabels,
                insertLabel?_of_not_contains hc, insertLabel?_of_not_contains hcontains,
                h.allocated]
              exact ih hrest _ (h.insert hr hname hc _ _)
      | instruction i =>
          simp only [renameAll, List.map_cons, Numbered.map, Statement.rename, bindLabels]
          split
          · exact .fail ⟨line, .programTooLarge⟩
          · exact ih hrest _ h

theorem agreeOrFail_link : AgreeOrFail r used (link statements) (link (renameAll r statements)) := by
  have hsymbols : ∀ symbol ∈ (instructions statements).filterMap (·.value.symbol?),
      used symbol := by
    intro symbol hsymbol
    obtain ⟨entry, hentry, hloaded⟩ := List.mem_filterMap.1 hsymbol
    exact used_of_mem_instructions hused hentry symbol hloaded
  have hmap : (instructions (renameAll r statements)).filterMap (·.value.symbol?) =
      ((instructions statements).filterMap (·.value.symbol?)).map r := by
    rw [instructions_renameAll, List.filterMap_map, List.map_filterMap]
    exact List.filterMap_congr fun entry _ => entry.value.symbol?_rename r
  have hbound := agreeOrFail_bindLabels hr hused 0 (Agree.initial hr)
  rw [link, link]
  generalize bindLabels 0 .initial statements = first at hbound ⊢
  generalize bindLabels 0 .initial (renameAll r statements) = second at hbound ⊢
  cases hbound with
  | fail fault => exact .fail fault
  | agree h =>
      have hallocated := h.foldl_allocate hr hsymbols
      rw [← hmap] at hallocated
      exact .agree hallocated

end Statements

theorem Fault.rename_of_resolve_eq_error {spelling : Spelling} {fault : Fault}
    (h : spelling.resolve = .error fault) : fault.rename r = fault := by
  cases Spelling.resolve_eq_error_iff.1 h <;> rfl

theorem encode_rename (hr : Renames r used) {table renamed : SymbolTable}
    (h : Agree r used table renamed) {i : Instruction Spelling}
    (hi : ∀ symbol ∈ i.symbol?, used symbol) :
    encode renamed (i.rename r) = (encode table i).mapError (Fault.rename r) := by
  cases i with
  | compute spelling =>
      rw [Instruction.rename, encode, encode]
      cases hresolve : spelling.resolve with
      | ok computation => rfl
      | error fault =>
          exact congrArg Except.error (Fault.rename_of_resolve_eq_error hresolve).symm
  | address operand =>
      cases operand with
      | number value => rfl
      | symbol name =>
          have hname : used name := hi name rfl
          have hfind : renamed.find? (r name) = table.find? name := h.find? name hname
          simp only [Instruction.rename, Operand.rename, encode, hfind]
          cases table.find? name with
          | none => rfl
          | some address =>
              by_cases hle : address ≤ MemoryMap.maxAddress
              · simp [hle, Except.mapError]
              · simp [hle, Except.mapError, Fault.rename, hr.isSymbol name hname]

theorem encodeLine_rename (hr : Renames r used) {table renamed : SymbolTable}
    (h : Agree r used table renamed) {entry : Numbered (Instruction Spelling)}
    (hentry : ∀ symbol ∈ entry.value.symbol?, used symbol) :
    encodeLine renamed (entry.map (Instruction.rename r)) =
      (encodeLine table entry).mapError (Numbered.map (Fault.rename r)) := by
  have hencode := encode_rename hr h hentry
  rw [encodeLine, encodeLine, Numbered.map, hencode]
  cases encode table entry.value <;> rfl

/-- Renamed statements have the same words, or the same fault of the renamed symbol. -/
theorem encodeAll_renameAll (hr : Renames r used) {statements : List (Numbered (Statement Spelling))}
    (hused : ∀ entry ∈ statements, ∀ symbol ∈ entry.value.symbol?, used symbol) :
    encodeAll (renameAll r statements) =
      (encodeAll statements).mapError (Numbered.map (Fault.rename r)) := by
  have hlinked := agreeOrFail_link hr hused
  rw [encodeAll, encodeAll, instructions_renameAll]
  generalize link statements = first at hlinked ⊢
  generalize link (renameAll r statements) = second at hlinked ⊢
  cases hlinked with
  | fail fault => rfl
  | agree h =>
      exact mapM_map_mapError fun entry hentry =>
        encodeLine_rename hr h (used_of_mem_instructions hused hentry)

end Renames

end Assembly

end HackToolchain
