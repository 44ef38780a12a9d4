import HackToolchain.Symbol
import HackToolchain.Vm.Fault
import HackToolchain.Vm.Operator

/-!
# Commands

A command is one line of the stack machine's language. `text` is its one written form with single
blanks. Not every value of the type is accepted: `defect?` finds what is wrong with the operands of a
command, and `check` accepts the commands without a defect.
-/

namespace HackToolchain

namespace Vm

inductive Command
  | operate (operator : Operator)
  | push (segment : Segment) (index : Word)
  | pop (segment : Segment) (index : Word)
  | label (name : String)
  | goto (name : String)
  | ifGoto (name : String)
  | function (name : String) (locals : Word)
  | call (name : String) (args : Word)
  | ret
  deriving Repr, DecidableEq

namespace Command

def text : Command → String
  | operate operator => operator.mnemonic
  | push segment index => s!"push {segment.name} {index}"
  | pop segment index => s!"pop {segment.name} {index}"
  | label name => s!"label {name}"
  | goto name => s!"goto {name}"
  | ifGoto name => s!"if-goto {name}"
  | function name locals => s!"function {name} {locals}"
  | call name args => s!"call {name} {args}"
  | ret => "return"

/-- What is wrong with a name that stands for code. -/
def nameDefect? (name : String) : Option Defect :=
  if Symbol.isName name then none else some (.invalidName name)

def indexDefect? (segment : Segment) (index : Word) : Option Defect :=
  if index ≤ segment.maxIndex then none else some (.indexTooLarge segment)

/-- What is wrong with a number of locals or arguments. -/
def countDefect? (count : Word) : Option Defect :=
  if count ≤ MemoryMap.maxAddress then none else some (.countTooLarge count)

/-- What is wrong with the operands of a command, if anything is. -/
def defect? : Command → Option Defect
  | operate _ | ret => none
  | pop .constant _ => some .popConstant
  | push .constant value =>
    if value ≤ MemoryMap.maxAddress then none else some (.constantTooLarge value)
  | push segment index | pop segment index => indexDefect? segment index
  | label name | goto name | ifGoto name => nameDefect? name
  | function name count | call name count => (nameDefect? name).or (countDefect? count)

/-- Accepts a command without a defect; any other is reported in its written form. -/
def check (command : Command) : Except Fault Unit :=
  match command.defect? with
  | none => .ok ()
  | some defect => .error (.malformedCommand command.text defect)

theorem check_eq_ok_iff {command : Command} :
    command.check = .ok () ↔ command.defect? = none := by
  unfold check
  cases command.defect? <;> simp

end Command

end Vm

end HackToolchain
