import HackToolchain.Instruction.Comp
import HackToolchain.Instruction.Dest
import HackToolchain.Instruction.Jump

/-!
# Compute instructions

A compute instruction names a destination, a computation and perhaps a jump. Its word has the bits
`111`, then seven for the computation, three for the destination and three for the jump. Its
spelling is `dest=comp;jump`, where an absent part leaves no trace.
-/

namespace HackToolchain

structure Computation where
  dest : Dest
  comp : Comp
  jump : Option Jump
  deriving Repr, DecidableEq

namespace Computation

def word (c : Computation) : Word :=
  (0xE000 : Word) ||| c.comp.bits <<< 6 ||| c.dest.bits <<< 3 ||| (c.jump.map Jump.bits).getD 0

def render (c : Computation) : String :=
  (if c.dest = Dest.nowhere then "" else c.dest.mnemonic ++ "=") ++ c.comp.mnemonic ++
    (match c.jump with
      | none => ""
      | some jump => ";" ++ jump.mnemonic)

/-- Writes a value and goes on. -/
def assign (dest : Dest) (comp : Comp) : Computation :=
  ⟨dest, comp, none⟩

/-- Jumps when a value satisfies a condition, and writes nothing. -/
def branch (comp : Comp) (jump : Jump) : Computation :=
  ⟨Dest.nowhere, comp, some jump⟩

example : (assign ⟨true, false, true⟩ (.decSource .m)).render = "AM=M-1" := by decide

example : (branch .zero .always).render = "0;JMP" := by decide

example : (branch .zero .always).word = 0b1110101010000111 := by decide

end Computation

end HackToolchain
