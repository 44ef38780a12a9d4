import HackToolchain.Vm.Command

/-!
# The context of a command

What a command becomes depends on the unit it stands in, on the function whose body it belongs to, and
on the next number for a generated label. Labels belong to the function, or to the unit before its
first function; static cells belong to the unit. Since no name holds the mark `$`, a label of the
program has exactly one in its symbol and a generated label that belongs to a function has two in a
row.
-/

namespace HackToolchain

namespace Lowering

open Vm

/-- What the lines of a command depend on besides the command. -/
structure Context where
  unit : String
  function : Option String
  nextId : Nat
  deriving Repr, DecidableEq

namespace Context

/-- The start of a unit before any number was drawn. -/
def ofUnit (unit : String) : Context :=
  ⟨unit, none, 0⟩

/-- Goes on to another unit. Numbers are not reused. -/
def enterUnit (context : Context) (unit : String) : Context :=
  { context with unit := unit, function := none }

/-- The number for the next generated label, and the context in which it is used up. There is no
largest number, as in a counter of 32 bits from which fewer than `2 ^ 32` numbers are drawn. -/
def freshId (context : Context) : Nat × Context :=
  (context.nextId, { context with nextId := context.nextId + 1 })

/-- What the labels at this place belong to. -/
def scope (context : Context) : String :=
  context.function.getD context.unit

def scopedLabel (context : Context) (label : String) : String :=
  context.scope ++ "$" ++ label

def staticSymbol (context : Context) (index : Word) : String :=
  context.unit ++ "." ++ toString index

end Context

end Lowering

end HackToolchain
