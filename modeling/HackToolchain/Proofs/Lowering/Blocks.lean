import HackToolchain.Proofs.Lowering.Simulation

/-!
# Executing a block as a whole

The computer executes a block when it starts at its first instruction and goes on until it is no
longer inside of the block. Where the only jump of a block is its last instruction, there is one way
to do this: all instructions up to the jump one after another, then the jump.
-/

namespace HackToolchain

namespace Lowering

open Vm Machine
open Assembly hiding Fault

namespace Program

/-- Whether an address is inside of the block of a command, behind its start. -/
def IsInside (program : Program) (k : Nat) (address : Word) : Prop :=
  program.start k < address.toNat ∧ address.toNat < program.start (k + 1)

/-- The computer executes the block of a command: from its start, inside of it, until it is inside
no more. A block without instructions takes no step. -/
structure Executes (program : Program) (k : Nat) (cpu final : Cpu) : Prop where
  start : cpu.pc = .ofNat (program.start k)
  path : ∃ n, Cpu.Path Status.IsAny n cpu final ∧
    (0 < n ↔ program.start k < program.start (k + 1)) ∧
    ∀ m mid, 0 < m → m < n → Cpu.Path Status.IsAny m cpu mid → program.IsInside k mid.pc
  outside : ¬program.IsInside k final.pc

variable {program : Program} {image : Image} {k : Nat} {placed : Placed} {cpu final : Cpu}

theorem Executes.rom_eq (h : program.Executes k cpu final) : final.rom = cpu.rom := by
  obtain ⟨n, path, -⟩ := h.path
  exact path.rom_eq

theorem Executes.unique {final' : Cpu} (h : program.Executes k cpu final)
    (h' : program.Executes k cpu final') : final = final' := by
  obtain ⟨n, path, hpos, hinside⟩ := h.path
  obtain ⟨n', path', hpos', hinside'⟩ := h'.path
  have hn : n = n' := by
    rcases Nat.lt_trichotomy n n' with hlt | heq | hgt
    · have hn := hpos.2 (hpos'.1 (Nat.zero_lt_of_lt hlt))
      exact absurd (hinside' n final hn hlt path) h.outside
    · exact heq
    · have hn' := hpos'.2 (hpos.1 (Nat.zero_lt_of_lt hgt))
      exact absurd (hinside n' final' hn' hgt path') h'.outside
  subst hn
  exact path.unique path'

section Image

variable (himage : image.statements = program.statements)
include himage

theorem toNat_of_le_start {n : Nat} (h : n ≤ program.start k) : (UInt16.ofNat n).toNat = n := by
  apply UInt16.toNat_ofNat_of_lt'
  exact Nat.lt_of_le_of_lt (Nat.le_trans h (start_le_romSize himage k)) (by decide)

theorem not_isInside_start (j k : Nat) : ¬program.IsInside k (.ofNat (program.start j)) := by
  rintro ⟨hlt, hlt'⟩
  rw [toNat_of_le_start himage (Nat.le_refl _)] at hlt hlt'
  rcases Nat.lt_or_ge k j with hgt | hle
  · have hle : program.start (k + 1) ≤ program.start j := start_le_start hgt
    omega
  · have hle : program.start j ≤ program.start k := start_le_start hle
    omega

variable {head tail : Block} {core core' : Core} {j n : Nat}
  (hat : image.At (program.onward k) cpu) (hplaced : program.commands[k]? = some placed)
  (hexec : image.exec? head cpu.core = some core)
include hat hplaced hexec

/-- Steps through a block that do not jump before the last one execute it if they end at the start
of a command. -/
theorem executes_of_path (hblock : placed.block = head ++ tail)
    (path : Cpu.Path Status.IsAny n cpu final) (hhead : n ≤ codeSize head + 1)
    (hsize : n ≤ codeSize placed.block) (hpos : 0 < codeSize placed.block → 0 < n)
    (hpc : final.pc = .ofNat (program.start j)) : program.Executes k cpu final := by
  have hsucc := start_succ hplaced
  refine ⟨((at_onward_iff himage).1 hat).2, ⟨n, path, by omega, fun m mid hm hlt path' => ?_⟩,
    hpc ▸ not_isInside_start himage j k⟩
  have hstatements : image.statements =
      program.before k ++ (head ++ (tail ++ program.onward (k + 1))) := by
    rw [himage, program.statements_eq k, onward_eq hplaced, hblock, List.append_assoc]
  rw [onward_eq hplaced, hblock, List.append_assoc] at hat
  have hmid : mid.pc = .ofNat (program.start k + m) :=
    Image.pc_of_exec? hstatements hat hexec (by omega) path'
  have hle : program.start k + m ≤ program.start (k + 1) := by omega
  rw [hmid, IsInside, toNat_of_le_start himage hle]
  omega

/-- A block whose only jump leads to the start of a command is executed up to the jump, which is
then made. -/
theorem exists_executes_of_jump {i : Instruction Computation}
    (hblock : placed.block = head ++ .instruction i :: tail)
    (hjump : image.Leads Status.IsAny 1 (.instruction i :: (tail ++ program.onward (k + 1))) core
      (program.onward j) core') :
    ∃ final, program.Executes k cpu final ∧ image.At (program.onward j) final ∧
      final.core = core' := by
  have hsize : codeSize placed.block = codeSize head + 1 + codeSize tail := by
    rw [hblock, codeSize_append, codeSize_instruction]
    omega
  have honward : program.onward k = head ++ .instruction i :: (tail ++ program.onward (k + 1)) := by
    rw [onward_eq hplaced, hblock, List.append_assoc, List.cons_append]
  obtain ⟨final, path, hat', hcore⟩ :=
    ((Image.leads_of_exec? (Status.isAny _) hexec _).trans hjump) cpu (honward ▸ hat) rfl
  refine ⟨final, ?_, hat', hcore⟩
  have hpc := ((at_onward_iff himage).1 hat').2
  exact executes_of_path himage hat hplaced hexec hblock path (Nat.le_refl _) (by omega)
    (fun _ => Nat.succ_pos _) hpc

end Image

theorem exists_executes_of_exec? {core : Core} (himage : image.statements = program.statements)
    (hat : image.At (program.onward k) cpu) (hplaced : program.commands[k]? = some placed)
    (hexec : image.exec? placed.block cpu.core = some core) :
    ∃ final, program.Executes k cpu final ∧ image.At (program.onward (k + 1)) final ∧
      final.core = core := by
  obtain ⟨final, path, hat', hcore⟩ :=
    Image.leads_of_exec? (Status.isAny _) hexec _ cpu (onward_eq hplaced ▸ hat) rfl
  refine ⟨final, ?_, hat', hcore⟩
  have hpc := ((at_onward_iff himage).1 hat').2
  exact executes_of_path himage hat hplaced hexec (List.append_nil _).symm path (Nat.le_succ _)
    (Nat.le_refl _) id hpc

theorem exists_executes_function {context : Context} {name : String}
    (himage : image.statements = program.statements)
    (hat : image.At (program.onward k) cpu)
    (hplaced : program.commands[k]? = some ⟨context, .function name 0⟩) :
    ∃ final, program.Executes k cpu final ∧ image.At (program.onward (k + 1)) final ∧
      final.ram = cpu.ram := by
  let done := name ++ "$$INIT_END." ++ toString context.nextId
  let tested : Core := ⟨image.address done, 0, cpu.ram⟩
  obtain ⟨body, hblock⟩ : ∃ body, functionBlock context.nextId name 0 =
      [.label name, loadNumber 0, setD (.source .a), load done] ++
        jumpIf .d .le :: (body ++ [.label done]) :=
    ⟨[load MemoryMap.scratch, setM .d,
        .label (name ++ "$$INIT_LOOP." ++ toString context.nextId)] ++
      zeroLoop (name ++ "$$INIT_LOOP." ++ toString context.nextId) ++ [jumpIf .d .gt], rfl⟩
  have hexec : image.exec? [.label name, loadNumber 0, setD (.source .a), load done] cpu.core =
      some tested := rfl
  have hdone : image.Locates tested.a (program.onward (k + 1)) := by
    apply Image.locates_label
    refine List.IsSuffix.trans ?_ (onward_suffix himage k)
    have hsplit : program.onward k = ([.label name, loadNumber 0, setD (.source .a), load done] ++
        jumpIf .d .le :: body) ++ .label done :: program.onward (k + 1) := by
      rw [onward_eq hplaced, Placed.block, block, hblock]
      simp
    exact hsplit ▸ List.suffix_append _ _
  have hjump := Image.leads_branch (Status.isAny _) tested .d rfl (by decide)
    (show Jump.Holds 0 .le by decide) hdone
  obtain ⟨final, hexecutes, hat', hcore⟩ :=
    exists_executes_of_jump himage hat hplaced hexec hblock (hjump _)
  exact ⟨final, hexecutes, hat', congrArg Core.ram hcore⟩

theorem exists_executes_push_constant {context : Context} {value : Word}
    (himage : image.statements = program.statements)
    (hat : image.At (program.onward k) cpu)
    (hplaced : program.commands[k]? = some ⟨context, .push .constant value⟩)
    (hcell : Memory.isStackCell (cpu.ram.pointer .sp) = true) :
    ∃ final, program.Executes k cpu final ∧ image.At (program.onward (k + 1)) final ∧
      final.ram = cpu.ram.push value := by
  have hcell : Memory.isStackCell (cpu.core.ram.pointer .sp) = true := hcell
  have hconstant : ∀ address ∈ Segment.constant.cell? (staticCell image context) cpu.core.ram value,
      Memory.contains address = true := by
    simp [Segment.cell?, Segment.base]
  obtain ⟨a, d, hexec⟩ := exec?_push context hcell hconstant
  obtain ⟨final, hexecutes, hat', hcore⟩ := exists_executes_of_exec? himage hat hplaced hexec
  exact ⟨final, hexecutes, hat', congrArg Core.ram hcore⟩

end Program

end Lowering

end HackToolchain
