import HackToolchain.Proofs.Lowering.Branch
import HackToolchain.Proofs.Lowering.Frame
import HackToolchain.Proofs.Lowering.Labels
import HackToolchain.Proofs.Vm.Machine

/-!
# The computer simulates the stack machine

A program that is lowered and assembled behaves as the stack machine says. One command of the stack
machine is a number of instructions of the computer, from the start of its block to the start of the
block of the next command, and RAM agrees outside the scratch cells. So a run of the stack machine
through safe states is followed by the computer, whatever it jumps to, calls and returns from.
-/

namespace HackToolchain

namespace Lowering

open Vm Machine
open Assembly hiding Fault

def Placed.static? : Placed → Option Word
  | ⟨_, .push .static index⟩ | ⟨_, .pop .static index⟩ => some index
  | _ => none

theorem Placed.load_mem_block {placed : Placed} {index : Word} (h : placed.static? = some index) :
    load (placed.context.staticSymbol index) ∈ placed.block := by
  obtain ⟨context, command⟩ := placed
  cases command with
  | push segment other =>
      cases segment with
      | static =>
          obtain rfl := Option.some.inj h
          simp [block, Lowering.block, readCell, Segment.base]
      | _ => simp [static?] at h
  | pop segment other =>
      cases segment with
      | static =>
          obtain rfl := Option.some.inj h
          simp [block, Lowering.block, popCell, Segment.base]
      | _ => simp [static?] at h
  | _ => simp [static?] at h

namespace Program

variable {program : Program} {image : Image}

section Static

variable (himage : image.statements = program.statements) {placed : Placed} {index : Word}
  (hplaced : placed ∈ program.commands) (hname : Symbol.isName placed.context.unit = true)
  (hstatic : placed.static? = some index)
  (hfree : ∀ other ∈ program.commands, ∀ locals,
    other.command ≠ .function (placed.context.staticSymbol index) locals)
include himage hplaced hname hstatic hfree

/-- Where no function has its symbol, a static cell that is used is a variable. -/
theorem exists_variableCell_static :
    ∃ place < MemoryMap.variableCount,
      image.address (placed.context.staticSymbol index) = variableCell place ∧
      (variableSymbols image.statements)[place]? = some (placed.context.staticSymbol index) := by
  have hload : load (placed.context.staticSymbol index) ∈ image.statements := by
    obtain ⟨k, hk, rfl⟩ := List.getElem_of_mem hplaced
    rw [himage, program.statements_eq k, onward_eq (List.getElem?_eq_getElem hk)]
    exact List.mem_append_right _ (List.mem_append_left _ (Placed.load_mem_block hstatic))
  have hlabel : placed.context.staticSymbol index ∉ labels image.statements := by
    intro hlabel
    rw [himage] at hlabel
    obtain ⟨other, hother, locals, hcommand⟩ := exists_function_of_mem_labels hname hlabel
    exact hfree other hother locals hcommand
  exact exists_variableCell (predefined?_staticSymbol _ _) hlabel (Image.address?_of_mem hload)

theorem isStackCell_static :
    Memory.isStackCell (image.address (placed.context.staticSymbol index)) = true := by
  obtain ⟨place, hplace, haddress, -⟩ :=
    exists_variableCell_static himage hplaced hname hstatic hfree
  rw [haddress, Memory.isStackCell_iff, toNat_variableCell hplace]
  have hlt : place < 32752 := hplace
  omega

end Static

end Program

theorem isUsable_of_mem_cell? (static : Word → Word) {ram : Memory} {segment : Segment}
    {index : Word} (hindex : index ≤ segment.maxIndex) (hguard : segmentGuard ram segment index)
    (hstatic : segment = .static → Memory.isStackCell (static index) = true) :
    ∀ address ∈ segment.cell? static ram index, Memory.isUsable address = true := by
  intro address haddress
  have hfixed (base bound : Word) (hbound : index.toNat ≤ bound.toNat)
      (hsum : base.toNat + bound.toNat ≤ 12) : Memory.isUsable (base + index) = true := by
    apply Memory.isUsable_of_toNat_le
    rw [UInt16.toNat_add]
    omega
  cases segment with
  | constant => simp [Segment.cell?, Segment.base] at haddress
  | static =>
      obtain rfl : static index = address := Option.some.inj haddress
      exact Memory.isUsable_of_isStackCell (hstatic rfl)
  | temp =>
      obtain rfl : MemoryMap.tempBase + index = address := Option.some.inj haddress
      exact hfixed _ 7 (UInt16.le_iff_toNat_le.1 hindex) (by decide)
  | pointer =>
      obtain rfl : MemoryMap.pointerBase + index = address := Option.some.inj haddress
      exact hfixed _ 1 (UInt16.le_iff_toNat_le.1 hindex) (by decide)
  | argument =>
      obtain rfl := Option.some.inj haddress
      exact hguard .arg rfl
  | locals =>
      obtain rfl := Option.some.inj haddress
      exact hguard .lcl rfl
  | this =>
      obtain rfl := Option.some.inj haddress
      exact hguard .this rfl
  | that =>
      obtain rfl := Option.some.inj haddress
      exact hguard .that rfl

theorem guard_congr {ram ram' : Memory} (h : ram.Agrees ram') (command : Command) :
    guard ram command ↔ guard ram' command := by
  have hsegment (segment : Segment) (index : Word) :
      segmentGuard ram segment index ↔ segmentGuard ram' segment index := by
    simp only [segmentGuard, h.pointer]
  cases command with
  | operate operator => simp only [guard, h.hasTop, h.drop.hasTop]
  | push segment index => simp only [guard, h.pointer, hsegment]
  | pop segment index => simp only [guard, h.hasTop, hsegment]
  | label name | goto name => rfl
  | ifGoto name => exact h.hasTop
  | function name locals => exact h.hasRoom _
  | call name args => exact h.hasRoom _
  | ret => simp only [guard, h.hasTop, h.hasFrame]

namespace Program

variable {program : Program} {image : Image} {allowed : Status → Prop}

theorem exists_declaration? {symbol : String}
    (h : ∃ placed ∈ program.commands, placed.declared? = some symbol) :
    ∃ k, program.declaration? symbol = some k := by
  obtain ⟨placed, hplaced, hdeclared⟩ := h
  rw [← Option.isSome_iff_exists, declaration?, List.findIdx?_isSome, List.any_eq_true]
  exact ⟨placed, hplaced, by simp [hdeclared]⟩

theorem locates_declaration? (himage : image.statements = program.statements) {symbol : String}
    {k : Nat} (h : program.declaration? symbol = some k) :
    image.Locates (image.address symbol) (program.onward k) := by
  obtain ⟨hlt, hdeclared, -⟩ := List.findIdx?_eq_some_iff_getElem.1 h
  exact locates_declared himage (List.getElem?_eq_getElem hlt) (by simpa using hdeclared)

theorem locates_commandAt? (himage : image.statements = program.statements) {address : Word}
    {k : Nat} (h : program.commandAt? address = some k) :
    image.Locates address (program.onward k) := by
  have haddress := List.find?_some h
  rw [locates_onward_iff himage]
  exact (beq_iff_eq.1 haddress).symm

/-- The label behind a call stands for the address of the next command. -/
theorem address_back (himage : image.statements = program.statements) {k : Nat} {context : Context}
    {name : String} {args : Word} (h : program.commands[k]? = some ⟨context, .call name args⟩) :
    image.address (name ++ "$$ret." ++ toString context.nextId) =
      .ofNat (program.start (k + 1)) := by
  rw [← locates_onward_iff himage]
  apply Image.locates_label
  have hsuffix := onward_suffix himage k
  rw [onward_eq h, Placed.block, block, callBlock_eq, List.append_assoc] at hsuffix
  exact ((List.suffix_cons _ _).trans (List.suffix_append _ _)).trans hsuffix

section Agreement

variable {cells : String → Word} (hvalid : ∀ placed ∈ program.commands, placed.IsValid)
  (hstatic : ∀ placed ∈ program.commands, ∀ index ∈ placed.static?,
    Memory.isStackCell (cells (placed.context.staticSymbol index)) = true)

theorem Safe.congr {k : Nat} {ram ram' : Memory} (h : ram.Agrees ram')
    (hsafe : program.Safe ⟨k, ram'⟩) : program.Safe ⟨k, ram⟩ := by
  intro placed hplaced
  obtain ⟨hguard, hreturn⟩ := hsafe placed hplaced
  refine ⟨(guard_congr h _).2 hguard, fun hcommand => ?_⟩
  rw [hcommand] at hguard
  rw [h.returnAddress hguard.2]
  exact hreturn hcommand

include hvalid hstatic

theorem step?_congr {k : Nat} {ram ram' : Memory} {state : State} (h : ram.Agrees ram')
    (hsafe : program.Safe ⟨k, ram'⟩) (hstep : program.step? cells ⟨k, ram'⟩ = some state) :
    ∃ ram'', program.step? cells ⟨k, ram⟩ = some ⟨state.next, ram''⟩ ∧
      ram''.Agrees state.ram := by
  cases hplaced : program.commands[k]? with
  | none => simp [step?, hplaced] at hstep
  | some placed =>
      have hmem := List.mem_of_getElem? hplaced
      obtain ⟨hguard, -⟩ := hsafe placed hplaced
      have hdefect := (hvalid placed hmem).defect
      have hcells := hstatic placed hmem
      obtain ⟨context, command⟩ := placed
      simp only [step?, hplaced] at hstep ⊢
      cases command with
      | operate operator =>
          obtain rfl := Option.some.inj hstep
          exact ⟨_, rfl, h.operate hguard.1 hguard.2⟩
      | push segment index =>
          obtain rfl := Option.some.inj hstep
          have husable := isUsable_of_mem_cell? (fun index => cells (context.staticSymbol index))
            (le_maxIndex_of_push hdefect) hguard.2 fun hsegment =>
              hcells index (by simp [Placed.static?, hsegment])
          exact ⟨_, rfl, h.value husable ▸ h.push _⟩
      | pop segment index =>
          obtain rfl := Option.some.inj hstep
          exact ⟨_, rfl, h.cell? _ segment index ▸ h.popInto hguard.1 _⟩
      | label name =>
          obtain rfl := Option.some.inj hstep
          exact ⟨_, rfl, h⟩
      | goto name =>
          obtain ⟨j, hj, rfl⟩ := Option.map_eq_some_iff.1 hstep
          exact ⟨ram, by simp only [hj, Option.map_some], h⟩
      | ifGoto name =>
          rw [h.top hguard]
          by_cases hzero : ram'.top = 0
          · simp only [if_pos hzero] at hstep ⊢
            obtain rfl := Option.some.inj hstep
            exact ⟨_, rfl, h.drop⟩
          · simp only [if_neg hzero] at hstep ⊢
            obtain ⟨j, hj, rfl⟩ := Option.map_eq_some_iff.1 hstep
            exact ⟨ram.drop, by simp only [hj, Option.map_some], h.drop⟩
      | function name locals =>
          obtain rfl := Option.some.inj hstep
          exact ⟨_, rfl, h.pushZeros _⟩
      | call name args =>
          obtain ⟨j, hj, rfl⟩ := Option.map_eq_some_iff.1 hstep
          exact ⟨_, by simp only [hj, Option.map_some], h.pushFrame _ args⟩
      | ret =>
          obtain ⟨j, hj, rfl⟩ := Option.map_eq_some_iff.1 hstep
          rw [h.returnAddress hguard.2]
          exact ⟨_, by simp only [hj, Option.map_some], h.popFrame hguard.1 hguard.2⟩

end Agreement

section Step

variable (himage : image.statements = program.statements)
  (hvalid : ∀ placed ∈ program.commands, placed.IsValid)
  (hstatic : ∀ placed ∈ program.commands, ∀ index ∈ placed.static?,
    Memory.isStackCell (image.address (placed.context.staticSymbol index)) = true)
  (hall : ∀ status, allowed status)
include himage hvalid hstatic hall

/-- The computer follows a safe command of the stack machine. -/
theorem leads_step (core : Core) {k : Nat} {state : State} (hsafe : program.Safe ⟨k, core.ram⟩)
    (hstep : program.step? image.address ⟨k, core.ram⟩ = some state) :
    ∃ n core', image.Leads allowed n (program.onward k) core (program.onward state.next) core' ∧
      core'.ram.Agrees state.ram := by
  cases hplaced : program.commands[k]? with
  | none => simp [step?, hplaced] at hstep
  | some placed =>
      have hmem := List.mem_of_getElem? hplaced
      obtain ⟨hguard, hreturn⟩ := hsafe placed hplaced
      have hdefect := (hvalid placed hmem).defect
      have hcells := hstatic placed hmem
      obtain ⟨context, command⟩ := placed
      simp only [step?, hplaced] at hstep
      rw [onward_eq hplaced]
      cases command with
      | operate operator =>
          obtain rfl := Option.some.inj hstep
          obtain ⟨n, -, a, d, hleads⟩ := leads_operatorBlock (hall _) context.nextId operator
            hguard.1 hguard.2 (program.onward (k + 1))
          exact ⟨n, _, hleads, .refl _⟩
      | push segment index =>
          obtain rfl := Option.some.inj hstep
          have husable := isUsable_of_mem_cell? (staticCell image context)
            (le_maxIndex_of_push hdefect) hguard.2 fun hsegment =>
              hcells index (by simp [Placed.static?, hsegment])
          obtain ⟨n, -, core', hleads, hram⟩ := leads_push (hall _) context hguard.1 husable
            (program.onward (k + 1))
          exact ⟨n, core', hleads, hram ▸ .refl _⟩
      | pop segment index =>
          obtain rfl := Option.some.inj hstep
          have husable := isUsable_of_mem_cell? (staticCell image context)
            (le_maxIndex_of_pop hdefect) hguard.2 fun hsegment =>
              hcells index (by simp [Placed.static?, hsegment])
          obtain ⟨n, -, core', hleads, hagrees⟩ := leads_pop (hall _) context hguard.1 husable
            (program.onward (k + 1))
          exact ⟨n, core', hleads, hagrees⟩
      | label name =>
          obtain rfl := Option.some.inj hstep
          exact ⟨0, core, Image.leads_label _ _ core, .refl _⟩
      | goto name =>
          obtain ⟨j, hj, rfl⟩ := Option.map_eq_some_iff.1 hstep
          have hlocates := locates_declaration? himage hj
          exact ⟨2, _, leads_goto hall hlocates core (program.onward (k + 1)), .refl _⟩
      | ifGoto name =>
          by_cases hzero : core.ram.top = 0
          · simp only [if_pos hzero] at hstep
            obtain rfl := Option.some.inj hstep
            exact ⟨5, _, leads_ifGoto_of_eq (hall _) image _ hguard hzero
              (program.onward (k + 1)), .refl _⟩
          · simp only [if_neg hzero] at hstep
            obtain ⟨j, hj, rfl⟩ := Option.map_eq_some_iff.1 hstep
            have hlocates := locates_declaration? himage hj
            exact ⟨5, _, leads_ifGoto_of_ne (hall _) hlocates hguard hzero
              (program.onward (k + 1)), .refl _⟩
      | function name locals =>
          obtain rfl := Option.some.inj hstep
          exact leads_functionBlock (hall _) context.nextId name
            (signature_of_defect? hdefect).2 hguard (program.onward (k + 1))
      | call name args =>
          obtain ⟨j, hj, rfl⟩ := Option.map_eq_some_iff.1 hstep
          have hlocates := locates_declaration? himage hj
          obtain ⟨n, core', hleads, hram⟩ := leads_callBlock hall context.nextId args hlocates
            hguard (program.onward (k + 1))
          rw [address_back himage hplaced] at hram
          exact ⟨n, core', hleads, hram ▸ .refl _⟩
      | ret =>
          obtain ⟨j, hj, rfl⟩ := Option.map_eq_some_iff.1 hstep
          exact leads_returnBlock hall (locates_commandAt? himage hj) hguard.1 hguard.2
            (program.onward (k + 1))

/-- The computer follows a run of the stack machine. -/
theorem follows_run {n : Nat} {state final : State}
    (hrun : program.Run image.address n state final) {cpu : Cpu}
    (hat : image.At (program.onward state.next) cpu) (hagrees : cpu.ram.Agrees state.ram) :
    ∃ m cpu', Cpu.Path allowed m cpu cpu' ∧ image.At (program.onward final.next) cpu' ∧
      cpu'.ram.Agrees final.ram := by
  induction hrun generalizing cpu with
  | refl => exact ⟨0, cpu, .refl cpu, hat, hagrees⟩
  | cons hsafe hstep _ ih =>
      obtain ⟨ram, hstep', hagrees'⟩ := step?_congr hvalid hstatic hagrees hsafe hstep
      have hsafe' := hsafe.congr hagrees
      obtain ⟨m, core, hleads, hcore⟩ :=
        leads_step himage hvalid hstatic hall cpu.core hsafe' hstep'
      obtain ⟨mid, path, hat', rfl⟩ := hleads cpu hat rfl
      obtain ⟨m', final', path', hat'', hagrees''⟩ := ih hat' (hcore.trans hagrees')
      exact ⟨m + m', final', path.trans path', hat'', hagrees''⟩

end Step

end Program

end Lowering

end HackToolchain
