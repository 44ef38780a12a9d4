import HackToolchain.Proofs.Assembly.Acceptance
import HackToolchain.Proofs.Lowering.Statics

/-!
# Programs without jumps

A program of operators, pushes and pops that reach no cell through a pointer is executed block after
block. RAM shows the store at every step, each command takes at most twelve steps, and since every
push has seven instructions the stack cannot grow out of RAM. At the end the computer halts.
-/

namespace HackToolchain

namespace Lowering

open Vm Machine
open Assembly hiding Fault

/-- A command that can be evaluated makes the stack higher by one at most, and takes seven
instructions to do so. -/
theorem height_le_of_step? {unit : String} {store next : Store} {command : Command}
    (context : Context) (h : store.step? unit command = some next) :
    7 * next.stack.length ≤ 7 * store.stack.length + codeSize (block context command) := by
  cases command with
  | operate operator =>
      suffices hle : next.stack.length ≤ store.stack.length by omega
      rw [Store.step?] at h
      rcases hstack : store.stack with _ | ⟨y, _ | ⟨x, rest⟩⟩ <;>
        cases hunary : operator.isUnary <;> simp only [hstack, hunary, reduceCtorEq] at h <;>
        obtain rfl := Option.some.inj h <;> simp [Store.withStack]
  | push segment index =>
      have hsize : 7 ≤ codeSize (block context (.push segment index)) := by
        cases segment <;> exact Nat.le_of_ble_eq_true rfl
      have hnext : next.stack.length = store.stack.length + 1 := by
        cases segment <;> simp only [Store.step?, reduceCtorEq] at h <;>
          obtain rfl := Option.some.inj h <;> rfl
      omega
  | pop segment index =>
      suffices hle : next.stack.length ≤ store.stack.length by omega
      cases hstack : store.stack with
      | nil => cases segment <;> simp [Store.step?, hstack] at h
      | cons y rest =>
          cases segment <;> simp only [Store.step?, hstack, reduceCtorEq] at h <;>
            obtain rfl := Option.some.inj h <;>
            simp [Store.withStack, Store.setTemp, Store.setStatic]
  | _ => simp [Store.step?] at h

namespace Program

variable {program : Program} {image : Image} {k : Nat}

theorem leads_straight {allowed : Status → Prop} (hrun : allowed .running) (image : Image)
    (core : Core) {placed : Placed} (hplaced : program.commands[k]? = some placed)
    (hstraight : placed.command.isStraight = true) (hdefect : placed.command.defect? = none)
    (hguard : guard core.ram placed.command)
    (hstatic : ∀ index ∈ placed.static?,
      Memory.isStackCell (image.address (placed.context.staticSymbol index)) = true) :
    ∃ n ≤ 12, ∃ core',
      image.Leads allowed n (program.onward k) core (program.onward (k + 1)) core' ∧
      core'.ram.Agrees
        (straightEffect (staticCell image placed.context) core.ram placed.command) := by
  rw [onward_eq hplaced]
  obtain ⟨context, command⟩ := placed
  cases command with
  | operate operator =>
      obtain ⟨n, hn, a, d, hleads⟩ := leads_operatorBlock hrun context.nextId operator
        hguard.1 hguard.2 (program.onward (k + 1))
      exact ⟨n, hn, _, hleads, .refl _⟩
  | push segment index =>
      have husable := isUsable_of_mem_cell? (staticCell image context)
        (le_maxIndex_of_push hdefect) hguard.2 fun hsegment =>
          hstatic index (by simp [Placed.static?, hsegment])
      obtain ⟨n, hn, core', hleads, hram⟩ := leads_push hrun context hguard.1 husable
        (program.onward (k + 1))
      exact ⟨n, hn, core', hleads, hram ▸ .refl _⟩
  | pop segment index =>
      have husable := isUsable_of_mem_cell? (staticCell image context)
        (le_maxIndex_of_pop hdefect) hguard.2 fun hsegment =>
          hstatic index (by simp [Placed.static?, hsegment])
      obtain ⟨n, hn, core', hleads, hagrees⟩ := leads_pop hrun context hguard.1 husable
        (program.onward (k + 1))
      exact ⟨n, hn, core', hleads, hagrees⟩
  | _ => simp [Command.isStraight] at hstraight

section Run

variable {cells : List (String × Word)} (himage : image.statements = program.statements)
  (hvalid : ∀ placed ∈ program.commands, placed.IsValid)
  (hstraight : ∀ placed ∈ program.commands, placed.command.isStraight = true)
  (hnodup : cells.Nodup) (hcount : cells.length ≤ 240)
  (hcells : ∀ placed ∈ program.commands, ∀ index ∈ placed.static?, ∃ place,
    cells[place]? = some (placed.context.unit, index) ∧
      image.address (placed.context.staticSymbol index) = variableCell place)
include himage hvalid hstraight hnodup hcount hcells

/-- The computer does to RAM what a command does to the store. -/
theorem exists_path_of_step? {store next : Store} {placed : Placed} {cpu : Cpu}
    (hplaced : program.commands[k]? = some placed)
    (hstep : store.step? placed.context.unit placed.command = some next)
    (hat : image.At (program.onward k) cpu) (hholds : Holds cells store cpu.ram)
    (hheight : 7 * store.stack.length ≤ program.start k) :
    ∃ n ≤ 12, ∃ cpu', Cpu.Path Status.IsRunning n cpu cpu' ∧
      image.At (program.onward (k + 1)) cpu' ∧ Holds cells next cpu'.ram ∧
      7 * next.stack.length ≤ program.start (k + 1) := by
  have hmem := List.mem_of_getElem? hplaced
  have hdefect := (hvalid placed hmem).defect
  have hroom : store.stack.length + 1 < 32512 := by
    have hstart := start_le_romSize himage k
    have hsize : MemoryMap.romSize = 32768 := rfl
    omega
  have hcell (index : Word) (hindex : placed.cell? = some (placed.context.unit, index)) :=
    hcells placed hmem index (by simpa [Placed.cell?_eq] using hindex)
  obtain ⟨hguard, hholds'⟩ :=
    hholds.step hnodup hdefect hroom (staticCell image placed.context) hcell hstep
  obtain ⟨n, hn, core', hleads, hagrees⟩ := leads_straight Status.isRunning_running image cpu.core
    hplaced (hstraight placed hmem) hdefect hguard fun index hindex => by
      obtain ⟨place, hplace, haddress⟩ := hcells placed hmem index hindex
      have hlt : place < 240 := Nat.lt_of_lt_of_le (List.getElem?_eq_some_iff.1 hplace).1 hcount
      rw [haddress, Memory.isStackCell_iff, toNat_variableCell (Nat.lt_trans hlt (by decide))]
      omega
  obtain ⟨cpu', path, hat', rfl⟩ := hleads cpu hat rfl
  refine ⟨n, hn, cpu', path, hat', hholds'.congr hagrees, ?_⟩
  rw [start_succ hplaced]
  have hle := height_le_of_step? placed.context hstep
  exact Nat.le_trans hle (Nat.add_le_add_right hheight _)

/-- The computer evaluates the commands from one on. -/
theorem exists_path_of_run? {store final : Store} {cpu : Cpu} (hk : k ≤ program.commands.length)
    (hrun : Store.run? store ((program.commands.drop k).map Placed.pair) = some final)
    (hat : image.At (program.onward k) cpu) (hholds : Holds cells store cpu.ram)
    (hheight : 7 * store.stack.length ≤ program.start k) :
    ∃ n ≤ 12 * (program.commands.length - k), ∃ cpu', Cpu.Path Status.IsRunning n cpu cpu' ∧
      image.At (program.onward program.commands.length) cpu' ∧ Holds cells final cpu'.ram := by
  induction hleft : program.commands.length - k generalizing k store cpu with
  | zero =>
      obtain rfl : k = program.commands.length := by omega
      rw [List.drop_length] at hrun
      obtain rfl := Option.some.inj hrun
      exact ⟨0, Nat.zero_le _, cpu, .refl cpu, hat, hholds⟩
  | succ left ih =>
      have hlt : k < program.commands.length := by omega
      rw [List.drop_eq_getElem_cons hlt, List.map_cons] at hrun
      obtain ⟨next, hstep, hrest⟩ := Option.bind_eq_some_iff.1 hrun
      obtain ⟨n, hn, mid, path, hat', hholds', hheight'⟩ :=
        exists_path_of_step? himage hvalid hstraight hnodup hcount hcells
          (List.getElem?_eq_getElem hlt) hstep hat hholds hheight
      obtain ⟨n', hn', cpu', path', hat'', hholds''⟩ :=
        ih hlt hrest hat' hholds' hheight' (by omega)
      exact ⟨n + n', by omega, cpu', path.trans path', hat'', hholds''⟩

end Run

end Program

end Lowering

end HackToolchain
