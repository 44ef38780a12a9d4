import HackToolchain.Proofs.Lowering.Branch
import HackToolchain.Proofs.Lowering.Layout

/-!
# Passing a block

The computer passes the block of a command when it goes from its start to its end without leaving it
on the way. A block that leads to its end within its own bounds is passed: those of operators,
pushes, pops and functions, with what each does to RAM.
-/

namespace HackToolchain

namespace Lowering

open Vm Machine
open Assembly hiding Fault

namespace Program

variable {program : Program} {image : Image} {k n : Nat} {placed : Placed} {cpu final : Cpu}

/-- In `n` steps the computer comes to the end of the block of a command. None of the steps fails or
halts the computer, and before each of them it is at an instruction of the block. -/
structure Passes (program : Program) (k n : Nat) (cpu final : Cpu) : Prop where
  path : Cpu.Path Status.IsRunning n cpu final
  inside : ∀ m < n, ∀ mid, Cpu.Path Status.IsAny m cpu mid →
    program.start k ≤ mid.pc.toNat ∧ mid.pc.toNat < program.start (k + 1)
  pc : final.pc = .ofNat (program.start (k + 1))

theorem Passes.cycles_eq (h : program.Passes k n cpu final) : final.cycles = cpu.cycles + n :=
  h.path.cycles_eq

section Image

variable (himage : image.statements = program.statements) (hrom : cpu.rom = image.rom)
  (hpc : cpu.pc = .ofNat (program.start k))
include himage hrom hpc

/-- A block is passed if it leads to its end within its bounds. -/
theorem exists_passes (hplaced : program.commands[k]? = some placed) {core : Core}
    (h : image.LeadsWithin (codeSize (program.onward (k + 1)))
      (codeSize placed.block + codeSize (program.onward (k + 1))) Status.IsRunning n
      (placed.block ++ program.onward (k + 1)) cpu.core (program.onward (k + 1)) core) :
    ∃ final, program.Passes k n cpu final ∧ final.ram = core.ram := by
  have hat : image.At (placed.block ++ program.onward (k + 1)) cpu :=
    onward_eq hplaced ▸ (at_onward_iff himage).2 ⟨hrom, hpc⟩
  obtain ⟨final, path, hwithin, hat', hcore⟩ := h cpu hat rfl
  refine ⟨final, ⟨path, fun m hm mid hmid => ?_, ((at_onward_iff himage).1 hat').2⟩,
    congrArg Core.ram hcore⟩
  obtain ⟨hlo, hhi⟩ := hwithin m hm mid hmid
  have hstart := start_succ hplaced
  have hsize : codeSize image.statements =
      program.start (k + 1) + codeSize (program.onward (k + 1)) := by
    rw [himage, program.statements_eq (k + 1), codeSize_append, start]
  rw [Image.left, hsize] at hlo hhi
  omega

/-- A block without a jump is passed with one step for each instruction. -/
theorem exists_passes_of_exec? (hplaced : program.commands[k]? = some placed) {core : Core}
    (h : image.exec? placed.block cpu.core = some core) :
    ∃ final, program.Passes k (codeSize placed.block) cpu final ∧ final.ram = core.ram :=
  exists_passes himage hrom hpc hplaced
    (Image.leadsWithin_of_exec? Status.isRunning_running h (Nat.le_refl _) (Nat.le_refl _))

variable {context : Context} {segment : Segment} {index : Word}

theorem exists_passes_operate {operator : Operator}
    (hplaced : program.commands[k]? = some ⟨context, .operate operator⟩) (htop : cpu.ram.hasTop)
    (hsecond : operator.isUnary = false → cpu.ram.drop.hasTop) :
    ∃ n ≤ 12, ∃ final, program.Passes k n cpu final ∧ final.ram = cpu.ram.operate operator := by
  have htop : cpu.core.ram.hasTop := htop
  obtain ⟨n, hn, a, d, h⟩ := leadsWithin_operatorBlock Status.isRunning_running context.nextId
    operator htop hsecond (program.onward (k + 1)) (Nat.le_refl _) (Nat.le_refl _)
  obtain ⟨final, hpasses, hram⟩ := exists_passes himage hrom hpc hplaced h
  exact ⟨n, hn, final, hpasses, hram⟩

theorem exists_passes_push (hplaced : program.commands[k]? = some ⟨context, .push segment index⟩)
    (hroom : Memory.isStackCell (cpu.ram.pointer .sp) = true)
    (h : ∀ address ∈ segment.cell? (staticCell image context) cpu.ram index,
      Memory.contains address = true) :
    ∃ n final, program.Passes k n cpu final ∧
      final.ram = cpu.ram.push (segment.value (staticCell image context) cpu.ram index) := by
  have hroom : Memory.isStackCell (cpu.core.ram.pointer .sp) = true := hroom
  obtain ⟨a, d, hexec⟩ := exec?_push context hroom h
  exact ⟨_, exists_passes_of_exec? himage hrom hpc hplaced hexec⟩

theorem exists_passes_pop (hplaced : program.commands[k]? = some ⟨context, .pop segment index⟩)
    (htop : cpu.ram.hasTop)
    (h : ∀ address ∈ segment.cell? (staticCell image context) cpu.ram index,
      Memory.contains address = true) :
    ∃ n final, program.Passes k n cpu final ∧
      final.ram = (cpu.ram.park segment index).popInto
        (segment.cell? (staticCell image context) cpu.ram index) := by
  have htop : cpu.core.ram.hasTop := htop
  obtain ⟨a, d, hexec⟩ := exec?_pop context htop h
  exact ⟨_, exists_passes_of_exec? himage hrom hpc hplaced hexec⟩

theorem exists_passes_function {name : String} {locals : Word}
    (hplaced : program.commands[k]? = some ⟨context, .function name locals⟩)
    (hlocals : locals ≤ MemoryMap.maxAddress) (hroom : cpu.ram.hasRoom locals.toNat) :
    ∃ final, program.Passes k (if locals = 0 then 4 else 6 + 9 * locals.toNat) cpu final ∧
      final.ram = cpu.ram.pushLocals locals := by
  have hroom : cpu.core.ram.hasRoom locals.toNat := hroom
  have hsize : codeSize (functionBlock context.nextId name locals) = 15 := rfl
  obtain ⟨a, h⟩ := leadsWithin_functionBlock Status.isRunning_running context.nextId name hlocals
    hroom (program.onward (k + 1)) (Nat.le_refl _) (Nat.le_of_eq (Nat.add_comm _ _))
  exact exists_passes himage hrom hpc hplaced (hsize ▸ h)

end Image

end Program

end Lowering

end HackToolchain
