import HackToolchain.Assembly.Reader
import HackToolchain.Assembly.SymbolTable
import HackToolchain.MachineCode

/-!
# From assembly to machine code

A text is assembled in three phases, each over all of its lines, and the first phase that fails says
what is wrong. First every line is read. Then the labels are bound, each to the number of
instructions before it, and the instructions have to fit into ROM. Last, the symbols still unbound
are allocated cells in the order of their first use, and each instruction is encoded as one word.
-/

namespace HackToolchain

namespace Assembly

open Text (Numbered)

def bindLabels {κ : Type} (address : Nat) (table : SymbolTable) :
    List (Numbered (Statement κ)) → Except (Numbered Fault) SymbolTable
  | [] => .ok table
  | ⟨line, .label name⟩ :: rest =>
    match table.insertLabel? name (.ofNat address) with
    | some next => bindLabels address next rest
    | none => .error ⟨line, .duplicateLabel name⟩
  | ⟨line, .instruction _⟩ :: rest =>
    if address = MemoryMap.romSize then .error ⟨line, .programTooLarge⟩
    else bindLabels (address + 1) table rest

def instructions {κ : Type} (statements : List (Numbered (Statement κ))) :
    List (Numbered (Instruction κ)) :=
  statements.filterMap fun entry => entry.value.instruction?.map (⟨entry.line, ·⟩)

/-- Allocates the symbols that instructions use, in order. -/
def allocateVariables {κ : Type} (table : SymbolTable) (code : List (Numbered (Instruction κ))) :
    SymbolTable :=
  (code.filterMap (·.value.symbol?)).foldl SymbolTable.allocate table

/-- The word of an instruction. A symbol is unbound here only if there was no cell left for it, and
its address is too large only if it labels the end of a full ROM. -/
def encode (table : SymbolTable) : Instruction Spelling → Except Fault Word
  | .address (.number value) => .ok value
  | .address (.symbol name) =>
    match table.find? name with
    | none => .error (.outOfVariables name)
    | some address =>
      if address ≤ MemoryMap.maxAddress then .ok address else .error (.addressOutOfRange name)
  | .compute spelling => spelling.resolve.map Computation.word

def encodeLine (table : SymbolTable) (entry : Numbered (Instruction Spelling)) :
    Except (Numbered Fault) Word :=
  (encode table entry.value).mapError (⟨entry.line, ·⟩)

/-- The table of all symbols of statements: their labels, then their variables. -/
def link {κ : Type} (statements : List (Numbered (Statement κ))) :
    Except (Numbered Fault) SymbolTable :=
  (bindLabels 0 .initial statements).map (allocateVariables · (instructions statements))

def encodeAll (statements : List (Numbered (Statement Spelling))) :
    Except (Numbered Fault) (List Word) := do
  let table ← link statements
  (instructions statements).mapM (encodeLine table)

def readText (text : String) : Except (Numbered Fault) (List (Numbered (Statement Spelling))) :=
  (Text.scan readStatement text).toExcept

def symbols (text : String) : Except (Numbered Fault) SymbolTable := do
  link (← readText text)

def assemble (text : String) : Except (Numbered Fault) MachineCode := do
  let statements ← readText text
  let words ← encodeAll statements
  return ⟨words.toArray⟩

end Assembly

end HackToolchain
