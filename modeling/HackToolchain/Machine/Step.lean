import HackToolchain.Machine.Alu
import HackToolchain.Machine.Cpu

/-!
# One instruction

An instruction with bit 15 clear loads itself into A. Any other instruction computes: bit 12 chooses
the memory word at A instead of A, bits 11 to 6 control the arithmetic unit, bits 5 to 3 write the
result to A, D and the memory word, and bits 2 to 0 jump to A when the result is below, at or above
zero. Memory word and jump target are those of A before the instruction.

Fetching past the end of ROM changes nothing. An instruction that needs a memory word where there is
no cell counts as a cycle and changes nothing else.
-/

namespace HackToolchain

namespace Machine

/-- What an instruction says about the program that it is part of. -/
inductive Status
  | running
  /-- The instruction was the jump of an endless loop of two instructions. -/
  | halted
  deriving Repr, DecidableEq

/-- Whether the jump bits of an instruction ask to jump on a result. -/
@[inline] def jumpsOn (instruction out : Word) : Bool :=
  (instruction.bit 2 && out.isNegative) ||
  (instruction.bit 1 && out == 0) ||
  (instruction.bit 0 && !out.isNegative && out != 0)

/-- Whether an instruction jumps whatever its result, and writes nothing. -/
@[inline] def isPlainJump (instruction : Word) : Bool :=
  instruction &&& 0b111 == 0b111 && instruction &&& 0b111000 == 0

namespace Cpu

@[inline] def loadWord (cpu : Cpu) (address : Word) : Except Fault Word :=
  if Memory.contains address then .ok (cpu.ram.read address)
  else .error (.addressOutOfRange address cpu.pc)

@[inline] def storeWord (cpu : Cpu) (address value : Word) : Except Fault Unit × Cpu :=
  if Memory.contains address then (.ok (), cpu.setRam address value)
  else (.error (.addressOutOfRange address cpu.pc), cpu)

/-- The operand besides D: the memory word at A, or A. -/
@[inline] def operand (cpu : Cpu) (instruction : Word) : Except Fault Word :=
  if instruction.bit 12 then cpu.loadWord cpu.a else .ok cpu.a

/-- Writes a result to the memory word at A, if the instruction asks for it. -/
@[inline] def storeResult (cpu : Cpu) (instruction out : Word) : Except Fault Unit × Cpu :=
  if instruction.bit 3 then cpu.storeWord cpu.a out else (.ok (), cpu)

/-- Whether a plain jump from `pc` to `target` closes an endless loop: the target is the instruction
before it, and that instruction loads its own address. -/
@[inline] def closesLoop (rom : Array Word) (pc target : Word) : Bool :=
  0 < pc && target == pc - 1 && rom[target.toNat]? == some target

/-- Writes a result to A and D, and goes to what was A or to the next instruction. -/
@[inline] def finish (cpu : Cpu) (instruction out : Word) : Status × Cpu :=
  let target := cpu.a
  let pc := cpu.pc
  let jumps := jumpsOn instruction out
  let halts := jumps && isPlainJump instruction && closesLoop cpu.rom pc target
  (if halts then .halted else .running,
    { cpu with
      a := if instruction.bit 5 then out else target
      d := if instruction.bit 4 then out else cpu.d
      pc := if jumps then target else pc + 1 })

@[inline] def execute (cpu : Cpu) (instruction : Word) : Except Fault Status × Cpu :=
  if !instruction.bit 15 then
    (.ok .running, { cpu with a := instruction, pc := cpu.pc + 1 })
  else
    match cpu.operand instruction with
    | .error fault => (.error fault, cpu)
    | .ok y =>
      let out := alu (instruction >>> 6) cpu.d y
      match cpu.storeResult instruction out with
      | (.error fault, cpu) => (.error fault, cpu)
      | (.ok (), cpu) =>
        let (status, cpu) := cpu.finish instruction out
        (.ok status, cpu)

def step (cpu : Cpu) : Except Fault Status × Cpu :=
  if h : cpu.pc.toNat < cpu.rom.size then
    let instruction := cpu.rom[cpu.pc.toNat]
    execute { cpu with cycles := cpu.cycles + 1 } instruction
  else
    (.error (.pcOutOfRange cpu.pc), cpu)

end Cpu

end Machine

end HackToolchain
