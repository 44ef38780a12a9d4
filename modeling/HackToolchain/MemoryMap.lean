import HackToolchain.Word

/-!
# The memory map

Where things lie in the RAM of the Hack computer. Cells 0 to 4 hold the pointers of the stack
machine, 5 to 12 the `temp` segment, 13 and 14 are scratch for generated code, 16 to 255 are handed
out to variables first, and the stack starts at 256.
-/

namespace HackToolchain

/-- The cells at the bottom of RAM in which the stack machine keeps its pointers. -/
inductive Pointer
  | sp
  | lcl
  | arg
  | this
  | that
  deriving Repr, DecidableEq

namespace Pointer

def symbol : Pointer → String
  | sp => "SP"
  | lcl => "LCL"
  | arg => "ARG"
  | this => "THIS"
  | that => "THAT"

def address : Pointer → Word
  | sp => 0
  | lcl => 1
  | arg => 2
  | this => 3
  | that => 4

def all : List Pointer :=
  [sp, lcl, arg, this, that]

end Pointer

namespace MemoryMap

def ramSize : Nat := 32768

def romSize : Nat := 32768

/-- The largest address, and the largest number that an instruction can load. -/
def maxAddress : Word := 32767

/-- The cell of `pointer 0`, which is the cell of `THIS`; that of `pointer 1` comes next. -/
def pointerBase : Word := Pointer.this.address

def tempBase : Word := 5

def scratch : String := "R13"

def secondScratch : String := "R14"

/-- The first cell handed out to a variable. -/
def variableBase : Word := 16

/-- The number of cells that can be handed out to variables. -/
def variableCount : Nat := 32752

def stackBase : Word := 256

def screen : Word := 16384

def keyboard : Word := 24576

/-- Variables may fill RAM to its last cell. -/
example : variableBase.toNat + variableCount = ramSize := rfl

end MemoryMap

end HackToolchain
