import HackToolchain.Assembly.Statement
import HackToolchain.Symbol
import HackToolchain.Text.Decimal

/-!
# Reading a line of assembly

What a line says is the text before its comment, trimmed. If that is empty the line says nothing. It
loads an address if it begins with `@`, declares a label if it begins with `(`, and otherwise
computes. A number to load has digits only and is at most 32767. Blanks inside a compute instruction
do not count; its jump follows the first `;` and its destination stands before the first `=`.
-/

namespace HackToolchain

namespace Assembly

/-- Reads what follows `@`. -/
def readOperand (cs : List Char) : Except Fault Operand :=
  match Text.decimal? cs with
  | some value =>
    if value ≤ MemoryMap.maxAddress.toNat then .ok (.number (.ofNat value))
    else .error (.addressOutOfRange (String.ofList cs))
  | none =>
    if Symbol.isSymbolWord cs then .ok (.symbol (String.ofList cs))
    else .error (.invalidSymbol (String.ofList cs))

/-- Reads what follows `(`: a symbol and `)`. -/
def readLabel (cs : List Char) : Except Fault String :=
  if cs.getLast? = some ')' ∧ Symbol.isSymbolWord cs.dropLast then .ok (String.ofList cs.dropLast)
  else .error (.invalidSymbol (String.ofList ('(' :: cs)))

/-- Reads a destination and a computation without blanks, given the jump that follows them. -/
def readAssignment (cs : List Char) (jump? : Option String) : Spelling :=
  match Text.splitFirst ['='] cs with
  | some (dest, comp) => ⟨some (String.ofList dest), String.ofList comp, jump?⟩
  | none => ⟨none, String.ofList cs, jump?⟩

/-- Reads a compute instruction without blanks. -/
def readCompact (cs : List Char) : Spelling :=
  match Text.splitFirst [';'] cs with
  | some (assignment, jump) => readAssignment assignment (some (String.ofList jump))
  | none => readAssignment cs none

def readCode : List Char → Except Fault (Option (Statement Spelling))
  | [] => .ok none
  | '@' :: cs => (readOperand cs).map fun operand => some (.instruction (.address operand))
  | '(' :: cs => (readLabel cs).map fun name => some (.label name)
  | cs => .ok (some (.instruction (.compute (readCompact (cs.filter (!Text.isBlank ·))))))

def readStatement (line : String) : Except Fault (Option (Statement Spelling)) :=
  readCode (Text.code line.toList)

end Assembly

end HackToolchain
