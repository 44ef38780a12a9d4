import HackToolchain.Proofs.Lowering.Statics

/-!
# How many symbols generated code loads

In generated code the instruction after the load of a symbol is no load of a symbol. So at most half
of the instructions load symbols, and a program that fits into ROM has cells to spare for all of its
variables.
-/

namespace HackToolchain

namespace Lowering

open Vm
open Assembly hiding Fault

/-- At most half of the instructions of a block load symbols. -/
def HasFewLoads (block : Block) : Prop :=
  2 * (symbolsIn block).length ≤ codeSize block

namespace HasFewLoads

theorem nil : HasFewLoads [] :=
  Nat.le_refl _

theorem append {block rest : Block} (h : HasFewLoads block) (hrest : HasFewLoads rest) :
    HasFewLoads (block ++ rest) := by
  rw [HasFewLoads] at h hrest ⊢
  rw [symbolsIn_append, List.length_append, codeSize_append]
  omega

theorem flatMap {commands : List Placed} (h : ∀ placed ∈ commands, HasFewLoads placed.block) :
    HasFewLoads (commands.flatMap Placed.block) := by
  induction commands with
  | nil => exact nil
  | cons placed rest ih =>
      obtain ⟨hplaced, hrest⟩ := List.forall_mem_cons.1 h
      exact hplaced.append (ih hrest)

end HasFewLoads

/-- In no block the load of a symbol follows on another one. -/
theorem hasFewLoads_block (placed : Placed) : HasFewLoads placed.block := by
  obtain ⟨context, command⟩ := placed
  cases command with
  | operate operator => cases operator <;> exact Nat.le_of_ble_eq_true rfl
  | push segment index => cases segment <;> exact Nat.le_of_ble_eq_true rfl
  | pop segment index => cases segment <;> exact Nat.le_of_ble_eq_true rfl
  | _ => exact Nat.le_of_ble_eq_true rfl

namespace Program

theorem hasFewLoads_statements (program : Program) : HasFewLoads program.statements := by
  have hprologue : HasFewLoads (statementsOf program.prologue) := by
    rw [prologue]
    split <;> exact Nat.le_of_ble_eq_true rfl
  have hepilogue : HasFewLoads (statementsOf program.epilogue) := by
    rw [epilogue]
    split <;> exact Nat.le_of_ble_eq_true rfl
  rw [statements_eq_blocks]
  exact (hprologue.append (.flatMap fun placed _ => hasFewLoads_block placed)).append hepilogue

/-- A program that fits into ROM has a cell for every variable. -/
theorem length_variableSymbols_le {program : Program}
    (h : codeSize program.statements ≤ MemoryMap.romSize) :
    (variableSymbols program.statements).length ≤ MemoryMap.variableCount := by
  have hvariables : (variableSymbols program.statements).length ≤
      (symbolsIn program.statements).length :=
    Nat.le_trans (length_eraseDups_le _) (List.length_filter_le _ _)
  have hloads : 2 * (symbolsIn program.statements).length ≤ codeSize program.statements :=
    program.hasFewLoads_statements
  have hrom : MemoryMap.romSize = 32768 := rfl
  have hcells : MemoryMap.variableCount = 32752 := rfl
  omega

end Program

end Lowering

end HackToolchain
