import HackToolchain.Text.Decimal
import HackToolchain.Text.Split
import HackToolchain.Vm.Command

/-!
# Reading a command

The fields of a line are a keyword and its operands. There are seventeen keywords, and a keyword fixes
how many operands follow and what they are. The operands are read from the left, so the first that
cannot be read is the one reported; only a line whose operands can all be read is then checked as a
command.
-/

namespace HackToolchain

namespace Vm

inductive Keyword
  | operate (operator : Operator)
  | push
  | pop
  | label
  | goto
  | ifGoto
  | function
  | call
  | ret
  deriving Repr, DecidableEq

namespace Keyword

def text : Keyword → String
  | operate operator => operator.mnemonic
  | push => "push"
  | pop => "pop"
  | label => "label"
  | goto => "goto"
  | ifGoto => "if-goto"
  | function => "function"
  | call => "call"
  | ret => "return"

def all : List Keyword :=
  Operator.all.map operate ++ [push, pop, label, goto, ifGoto, function, call, ret]

theorem mem_all (keyword : Keyword) : keyword ∈ all := by
  cases keyword with
  | operate operator => simp [all, Operator.mem_all]
  | _ => simp [all]

def ofText? (text : String) : Option Keyword :=
  all.find? (·.text == text)

example : all.length = 17 := rfl

@[simp] theorem ofText?_text (keyword : Keyword) : ofText? keyword.text = some keyword := by
  cases keyword with
  | operate operator => cases operator <;> decide
  | _ => decide

def arity : Keyword → Nat
  | operate _ | ret => 0
  | label | goto | ifGoto => 1
  | push | pop | function | call => 2

end Keyword

def readSegment (field : String) : Except Defect Segment :=
  match Segment.ofName? field with
  | some segment => .ok segment
  | none => .error (.unknownSegment field)

/-- Reads a number, which has to fit into a word. -/
def readNumber (role : NumberRole) (field : String) : Except Defect Word :=
  match Text.decimal? field.toList with
  | some value =>
    if value < UInt16.size then .ok (.ofNat value) else .error (.numberTooLarge role field)
  | none => .error (.notNumber role)

def readName (field : String) : Except Defect String :=
  if Symbol.isName field then .ok field else .error (.invalidName field)

def readCell (command : Segment → Word → Command) (segment index : String) :
    Except Defect Command := do
  let segment ← readSegment segment
  let index ← readNumber .index index
  return command segment index

def readSignature (command : String → Word → Command) (name count : String) :
    Except Defect Command := do
  let name ← readName name
  let count ← readNumber .count count
  return command name count

def readOperands : Keyword → List String → Except Defect Command
  | .operate operator, [] => .ok (.operate operator)
  | .push, [segment, index] => readCell .push segment index
  | .pop, [segment, index] => readCell .pop segment index
  | .label, [name] => (readName name).map .label
  | .goto, [name] => (readName name).map .goto
  | .ifGoto, [name] => (readName name).map .ifGoto
  | .function, [name, count] => readSignature .function name count
  | .call, [name, count] => readSignature .call name count
  | .ret, [] => .ok .ret
  | keyword, operands => .error (.operandCount keyword.arity operands.length)

def fields (line : String) : List String :=
  (Text.fields line.toList).map String.ofList

def readCommand (line : String) : Except Fault Command :=
  match fields line with
  | [] => .error (.malformedCommand line .empty)
  | keyword :: operands =>
    match Keyword.ofText? keyword with
    | none => .error (.unknownCommand keyword)
    | some keyword => do
      let command ← (readOperands keyword operands).mapError (.malformedCommand line)
      command.check
      return command

theorem defect?_of_readCommand {line : String} {command : Command}
    (h : readCommand line = .ok command) : command.defect? = none := by
  unfold readCommand at h
  split at h
  · simp at h
  · split at h
    · simp at h
    · simp only [bind, Except.bind] at h
      split at h
      · simp at h
      · split at h
        · simp at h
        · next hcheck =>
            obtain rfl := Except.ok.inj h
            exact Command.check_eq_ok_iff.1 hcheck

end Vm

end HackToolchain
