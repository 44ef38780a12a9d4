import HackToolchain.Assembly.Fault
import HackToolchain.Instruction.Computation

/-!
# Statements of assembly

A statement is an instruction or the declaration of a label. An instruction loads an address into
register A or computes. How a compute instruction is given is a parameter: code that is generated
holds a `Computation`, while a text that has only been read holds a `Spelling`, whose parts may turn
out to mean nothing.
-/

namespace HackToolchain

namespace Assembly

/-- What an address instruction loads: a number, or the address that a symbol stands for. -/
inductive Operand
  | number (value : Word)
  | symbol (name : String)
  deriving Repr, DecidableEq

def Operand.render : Operand → String
  | number value => toString value
  | symbol name => name

/-- An instruction, with compute instructions given by a value of `κ`. -/
inductive Instruction (κ : Type)
  | address (operand : Operand)
  | compute (computation : κ)
  deriving Repr, DecidableEq

/-- A statement, with compute instructions given by a value of `κ`. -/
inductive Statement (κ : Type)
  | instruction (instruction : Instruction κ)
  | label (name : String)
  deriving Repr, DecidableEq

def Instruction.symbol? {κ : Type} : Instruction κ → Option String
  | address (.symbol name) => some name
  | _ => none

def Statement.instruction? {κ : Type} : Statement κ → Option (Instruction κ)
  | instruction i => some i
  | label _ => none

def Statement.render : Statement Computation → String
  | instruction (.address operand) => "@" ++ operand.render
  | instruction (.compute computation) => computation.render
  | label name => "(" ++ name ++ ")"

/-- The three parts of a compute instruction as they were written. -/
structure Spelling where
  dest? : Option String
  comp : String
  jump? : Option String
  deriving Repr, DecidableEq

namespace Spelling

/-- The spelling of one part read by `ofMnemonic?`. -/
def resolvePart {α : Type} (field : Field) (ofMnemonic? : String → Option α) (text : String) :
    Except Fault α :=
  match ofMnemonic? text with
  | some part => .ok part
  | none => .error (.unknownMnemonic field text)

/-- The compute instruction with a given spelling. Of several parts that mean nothing the
computation is blamed first, then the destination, then the jump. -/
def resolve (spelling : Spelling) : Except Fault Computation := do
  let comp ← resolvePart .comp Comp.ofMnemonic? spelling.comp
  let dest ← match spelling.dest? with
    | some text => resolvePart .dest Dest.ofMnemonic? text
    | none => .ok Dest.nowhere
  let jump ← match spelling.jump? with
    | some text => (resolvePart .jump Jump.ofMnemonic? text).map some
    | none => .ok none
  return ⟨dest, comp, jump⟩

end Spelling

end Assembly

end HackToolchain
