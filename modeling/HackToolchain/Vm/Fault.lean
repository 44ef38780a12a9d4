import HackToolchain.Vm.Segment

/-!
# Why a line is no command

A line that begins with no known keyword is an unknown command; any other line that cannot be read is
malformed, and its defect says why. The name of a unit can be at fault too.
-/

namespace HackToolchain

namespace Vm

/-- What a number in a command is for. -/
inductive NumberRole
  | index
  | count
  deriving Repr, DecidableEq

def NumberRole.name : NumberRole → String
  | index => "index"
  | count => "count"

inductive Defect
  | empty
  | operandCount (expected found : Nat)
  | unknownSegment (name : String)
  | notNumber (role : NumberRole)
  | numberTooLarge (role : NumberRole) (digits : String)
  | invalidName (name : String)
  | popConstant
  | constantTooLarge (value : Word)
  | indexTooLarge (segment : Segment)
  | countTooLarge (count : Word)
  deriving Repr, DecidableEq

def Defect.message : Defect → String
  | empty => "empty command"
  | operandCount expected found => s!"expected {expected} operand(s), found {found}"
  | unknownSegment name => s!"unknown segment '{name}'"
  | notNumber role => s!"{role.name} must be a non-negative integer"
  | numberTooLarge role digits => s!"{role.name} {digits} is out of range"
  | invalidName name => s!"'{name}' is not a valid name"
  | popConstant => "cannot pop into the constant segment"
  | constantTooLarge value => s!"constant {value} exceeds {MemoryMap.maxAddress}"
  | indexTooLarge segment => s!"{segment.name} index must be at most {segment.maxIndex}"
  | countTooLarge count => s!"count {count} exceeds {MemoryMap.maxAddress}"

inductive Fault
  | invalidUnitName (name : String)
  | unknownCommand (keyword : String)
  | malformedCommand (command : String) (defect : Defect)
  deriving Repr, DecidableEq

def Fault.message : Fault → String
  | invalidUnitName name => s!"unit name '{name}' is not a valid name"
  | unknownCommand keyword => s!"unknown command '{keyword}'"
  | malformedCommand command defect => s!"malformed command '{command}': {defect.message}"

end Vm

end HackToolchain
