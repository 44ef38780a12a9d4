import HackToolchain.MachineCode
import HackToolchain.Machine.Memory

/-!
# The state of the computer

The computer holds a program in ROM, the contents of RAM, the registers A and D, the program counter
and the number of instructions executed so far.
-/

namespace HackToolchain

namespace Machine

structure Cpu where
  rom : Array Word
  ram : Memory
  a : Word
  d : Word
  pc : Word
  cycles : Nat

inductive Fault
  /-- The program counter points past the last instruction. -/
  | pcOutOfRange (pc : Word)
  /-- The instruction at `pc` uses a memory word past the last cell. -/
  | addressOutOfRange (address pc : Word)
  /-- The program did not halt within the cycles allowed. -/
  | cycleLimit (limit : Nat)
  deriving Repr, DecidableEq

def Fault.message : Fault → String
  | pcOutOfRange pc => s!"program counter {pc} is outside ROM"
  | addressOutOfRange address pc => s!"memory access at {address} out of range at pc {pc}"
  | cycleLimit limit => s!"no halt within {limit} cycles"

namespace Cpu

/-- The computer with a program loaded and everything else zero. -/
def load (code : MachineCode) : Cpu where
  rom := code.words
  ram := .zero
  a := 0
  d := 0
  pc := 0
  cycles := 0

def setRam (cpu : Cpu) (address value : Word) : Cpu :=
  { cpu with ram := cpu.ram.write address value }

end Cpu

end Machine

end HackToolchain
