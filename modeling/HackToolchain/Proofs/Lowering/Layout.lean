import HackToolchain.Proofs.Assembly.Execution
import HackToolchain.Proofs.Lowering.Writable

/-!
# Where commands lie

The block of a command starts after as many instructions as the bootstrap and the blocks before it
have. In the image of a program the computer is at the block of a command when its program counter
is that number, and a label or a function that a command declares stands for it.
-/

namespace HackToolchain

namespace Lowering

open Vm Machine
open Assembly hiding Fault

def Placed.declared? : Placed → Option String
  | ⟨context, .label name⟩ => some (context.scopedLabel name)
  | ⟨_, .function name _⟩ => some name
  | _ => none

def Placed.target? : Placed → Option String
  | ⟨context, .goto name⟩ | ⟨context, .ifGoto name⟩ => some (context.scopedLabel name)
  | ⟨_, .call name _⟩ => some name
  | _ => none

namespace Program

variable {program : Program} {k : Nat} {placed : Placed}

def before (program : Program) (k : Nat) : Block :=
  statementsOf program.prologue ++ (program.commands.take k).flatMap Placed.block

def onward (program : Program) (k : Nat) : Block :=
  (program.commands.drop k).flatMap Placed.block ++ statementsOf program.epilogue

def start (program : Program) (k : Nat) : Nat :=
  codeSize (program.before k)

theorem start_zero (h : program.bootstrap = false) : program.start 0 = 0 := by
  simp [start, before, prologue, h]

theorem statementsOf_flatMap_lines (commands : List Placed) :
    statementsOf (commands.flatMap Placed.lines) = commands.flatMap Placed.block := by
  induction commands with
  | nil => rfl
  | cons placed rest ih =>
      rw [List.flatMap_cons, List.flatMap_cons, statementsOf_append, ih]
      congr 1
      exact statementsOf_map_statement _

theorem statements_eq_blocks (program : Program) :
    program.statements = statementsOf program.prologue ++ program.commands.flatMap Placed.block ++
      statementsOf program.epilogue := by
  rw [statements, lines, statementsOf_append, statementsOf_append, statementsOf_flatMap_lines]

theorem statements_eq (program : Program) (k : Nat) :
    program.statements = program.before k ++ program.onward k := by
  have hsplit : program.commands.flatMap Placed.block =
      (program.commands.take k).flatMap Placed.block ++
        (program.commands.drop k).flatMap Placed.block := by
    rw [← List.flatMap_append, List.take_append_drop]
  rw [statements_eq_blocks, hsplit, before, onward]
  simp

theorem onward_eq (h : program.commands[k]? = some placed) :
    program.onward k = placed.block ++ program.onward (k + 1) := by
  obtain ⟨hlt, rfl⟩ := List.getElem?_eq_some_iff.1 h
  rw [onward, List.drop_eq_getElem_cons hlt, List.flatMap_cons, List.append_assoc, onward]

theorem start_succ (h : program.commands[k]? = some placed) :
    program.start (k + 1) = program.start k + codeSize placed.block := by
  rw [start, before, List.take_add_one, h, Option.toList_some, List.flatMap_append,
    List.flatMap_singleton, ← List.append_assoc, codeSize_append, start, before]

theorem start_le_start {j k : Nat} (h : j ≤ k) : program.start j ≤ program.start k := by
  induction h with
  | refl => exact Nat.le_refl _
  | @step k _ ih =>
      apply Nat.le_trans ih
      cases hplaced : program.commands[k]? with
      | none =>
          rw [List.getElem?_eq_none_iff] at hplaced
          have heq : program.start (k + 1) = program.start k := by
            rw [start, before, start, before, List.take_of_length_le hplaced,
              List.take_of_length_le (Nat.le_succ_of_le hplaced)]
          exact Nat.le_of_eq heq.symm
      | some placed =>
          rw [start_succ hplaced]
          exact Nat.le_add_right _ _

theorem exists_block_eq_of_declared {symbol : String} (h : placed.declared? = some symbol) :
    ∃ rest, placed.block = .label symbol :: rest := by
  obtain ⟨context, command⟩ := placed
  cases command with
  | label name =>
      obtain rfl := Option.some.inj h
      exact ⟨[], rfl⟩
  | function name locals =>
      obtain rfl := Option.some.inj h
      exact ⟨_, rfl⟩
  | _ => simp [Placed.declared?] at h

theorem mem_labels_of_declared {symbol : String} (h : placed ∈ program.commands)
    (hdeclared : placed.declared? = some symbol) : symbol ∈ labels program.statements := by
  obtain ⟨k, hk, rfl⟩ := List.getElem_of_mem h
  obtain ⟨rest, hblock⟩ := exists_block_eq_of_declared hdeclared
  rw [program.statements_eq k, onward_eq (List.getElem?_eq_getElem hk), hblock]
  simp

section Image

variable {image : Image} (himage : image.statements = program.statements)
include himage

/-- A word is the address of a command when it is the number of instructions before the command. -/
theorem locates_onward_iff {address : Word} :
    image.Locates address (program.onward k) ↔ address = .ofNat (program.start k) := by
  have hstatements := himage.trans (program.statements_eq k)
  constructor
  · rintro ⟨before, hbefore, rfl⟩
    rw [start, List.append_cancel_right (hbefore.symm.trans hstatements)]
  · rintro rfl
    exact ⟨program.before k, hstatements, rfl⟩

theorem at_onward_iff {cpu : Cpu} :
    image.At (program.onward k) cpu ↔ cpu.rom = image.rom ∧ cpu.pc = .ofNat (program.start k) := by
  rw [← locates_onward_iff himage]
  exact ⟨fun h => ⟨h.rom, h.pc⟩, fun h => ⟨h.1, h.2⟩⟩

theorem start_le_romSize (k : Nat) : program.start k ≤ MemoryMap.romSize := by
  have hle := image.size_le
  rw [himage, program.statements_eq k, codeSize_append] at hle
  exact Nat.le_trans (Nat.le_add_right _ _) hle

theorem onward_suffix (k : Nat) : program.onward k <:+ image.statements :=
  ⟨program.before k, (himage.trans (program.statements_eq k)).symm⟩

theorem locates_declared {symbol : String} (h : program.commands[k]? = some placed)
    (hdeclared : placed.declared? = some symbol) :
    image.Locates (image.address symbol) (program.onward k) := by
  obtain ⟨rest, hblock⟩ := exists_block_eq_of_declared hdeclared
  have hsuffix := onward_suffix himage k
  rw [onward_eq h, hblock] at hsuffix ⊢
  exact Image.locates_declaration hsuffix

end Image

end Program

end Lowering

end HackToolchain
