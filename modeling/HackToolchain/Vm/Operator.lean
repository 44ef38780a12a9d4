import HackToolchain.Instruction.Jump

/-!
# Operators

An operator takes its one or two operands from the stack and leaves its result there. A comparison
leaves a truth value, all ones or all zeros.
-/

namespace HackToolchain

namespace Vm

inductive Operator
  | add
  | sub
  | neg
  | eq
  | gt
  | lt
  | and
  | or
  | not
  deriving Repr, DecidableEq

namespace Operator

def mnemonic : Operator → String
  | add => "add"
  | sub => "sub"
  | neg => "neg"
  | eq => "eq"
  | gt => "gt"
  | lt => "lt"
  | and => "and"
  | or => "or"
  | not => "not"

def isUnary : Operator → Bool
  | neg | not => true
  | _ => false

/-- The condition on the difference of its operands that a comparison tests. -/
def condition? : Operator → Option Jump
  | eq => some .eq
  | gt => some .gt
  | lt => some .lt
  | _ => none

def isComparison (operator : Operator) : Bool :=
  operator.condition?.isSome

/-- By how much an operator changes the height of the stack. -/
def stackEffect (operator : Operator) : Int :=
  if operator.isUnary then 0 else -1

def all : List Operator :=
  [add, sub, neg, eq, gt, lt, and, or, not]

theorem mem_all (operator : Operator) : operator ∈ all := by
  cases operator <;> decide

def ofMnemonic? (text : String) : Option Operator :=
  all.find? (·.mnemonic == text)

@[simp] theorem ofMnemonic?_mnemonic (operator : Operator) :
    ofMnemonic? operator.mnemonic = some operator := by
  cases operator <;> decide

end Operator

end Vm

end HackToolchain
