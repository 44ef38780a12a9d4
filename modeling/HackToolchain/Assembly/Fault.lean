import HackToolchain.MemoryMap
import HackToolchain.Text.Scan

/-!
# Why a text does not assemble

Some faults are seen on a line by itself, the others only among the lines of the whole text. Each is
reported with the number of its line.
-/

namespace HackToolchain

namespace Assembly

inductive Field
  | comp
  | dest
  | jump
  deriving Repr, DecidableEq

def Field.name : Field → String
  | comp => "comp"
  | dest => "dest"
  | jump => "jump"

inductive Fault
  /-- A part of a compute instruction has a spelling without a meaning. -/
  | unknownMnemonic (field : Field) (mnemonic : String)
  /-- What stands where a symbol is expected is no symbol. -/
  | invalidSymbol (token : String)
  /-- An address lies past the last cell. -/
  | addressOutOfRange (token : String)
  /-- A label is predefined or was declared on an earlier line. -/
  | duplicateLabel (label : String)
  /-- ROM is full before this instruction. -/
  | programTooLarge
  /-- Every cell that a variable can have is taken. -/
  | outOfVariables (symbol : String)
  deriving Repr, DecidableEq

/-- What is wrong, without the line. -/
def Fault.reason : Fault → String
  | unknownMnemonic field mnemonic => s!"no {field.name} encoding for '{mnemonic}'"
  | invalidSymbol token => s!"invalid symbol '{token}'"
  | addressOutOfRange token => s!"address '{token}' out of range (max {MemoryMap.maxAddress})"
  | duplicateLabel label => s!"label '{label}' already defined"
  | programTooLarge => s!"program exceeds {MemoryMap.romSize} ROM words"
  | outOfVariables symbol => s!"no RAM left for variable '{symbol}'"

def Fault.message (fault : Text.Numbered Fault) : String :=
  s!"line {fault.line}: {fault.value.reason}"

end Assembly

end HackToolchain
