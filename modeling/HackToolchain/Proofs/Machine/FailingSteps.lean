import HackToolchain.Proofs.Machine.Halting

/-!
# Steps that fail

A step has one of three outcomes. There may be no word at the program counter; the word there may
compute with a memory word where there is no cell; or it is executed. In the first case the step
leaves the computer as it is and in the second it counts a cycle, so that a caller who goes on after
a fault finds the computer as it was. Whatever calls a caller makes, ROM holds the program that was
loaded.
-/

namespace HackToolchain

namespace Machine

namespace Cpu

/-- Whether the next word computes with a memory word where RAM has no cell. -/
def LacksCell (cpu : Cpu) : Prop :=
  ∃ word, cpu.rom[cpu.pc.toNat]? = some word ∧ word.bit 15 = true ∧
    (word.bit 12 = true ∨ word.bit 3 = true) ∧ 32768 ≤ cpu.a.toNat

/-- The outcomes of a step, each with the condition on which it comes about. -/
inductive Outcome (cpu : Cpu) : Except Fault Status × Cpu → Prop
  | noWord (h : cpu.rom.size ≤ cpu.pc.toNat) : Outcome cpu (.error (.pcOutOfRange cpu.pc), cpu)
  | noCell (h : cpu.LacksCell) :
      Outcome cpu (.error (.addressOutOfRange cpu.a cpu.pc), { cpu with cycles := cpu.cycles + 1 })
  | executed (status : Status) (core : Core) (pc : Word) (hword : cpu.pc.toNat < cpu.rom.size)
      (hcell : ¬cpu.LacksCell)
      (hram : ∀ address, address ≠ cpu.a → core.ram.read address = cpu.ram.read address) :
      Outcome cpu (.ok status, cpu.advance core pc)

/-- The guard with which an instruction is executed, for the word at the program counter. -/
theorem lacksCell_iff {cpu : Cpu} {word : Word} (h : cpu.rom[cpu.pc.toNat]? = some word) :
    cpu.LacksCell ↔
      word.bit 15 = true ∧ (usesMemory word && !Memory.contains cpu.a) = true := by
  have hcell : Memory.contains cpu.a = false ↔ 32768 ≤ cpu.a.toNat := by
    rw [← Bool.not_eq_true, Memory.contains_iff]
    exact Nat.not_lt
  simp [LacksCell, h, usesMemory, hcell]

theorem read_compute (cpu : Cpu) (word : Word) {address : Word} (h : address ≠ cpu.a) :
    (cpu.compute word).2.ram.read address = cpu.ram.read address := by
  simp only [compute]
  split
  · exact Memory.read_write_of_ne h _ _
  · rfl

theorem outcome_step (cpu : Cpu) : cpu.Outcome cpu.step := by
  by_cases hlt : cpu.pc.toNat < cpu.rom.size
  · have hword : cpu.rom[cpu.pc.toNat]? = some cpu.rom[cpu.pc.toNat] :=
      Array.getElem?_eq_getElem hlt
    have hlacks := lacksCell_iff hword
    rw [step_of_getElem? hword, execute_eq]
    cases hbit : (cpu.rom[cpu.pc.toNat]).bit 15 with
    | false =>
        rw [hbit] at hlacks
        exact .executed .running { cpu.core with a := cpu.rom[cpu.pc.toNat] } (cpu.pc + 1) hlt
          (fun h => Bool.false_ne_true (hlacks.1 h).1) (fun _ _ => rfl)
    | true =>
        cases hguard : usesMemory cpu.rom[cpu.pc.toNat] && !Memory.contains cpu.a with
        | true => exact .noCell (hlacks.2 ⟨hbit, hguard⟩)
        | false =>
            rw [hguard] at hlacks
            let next := { cpu with cycles := cpu.cycles + 1 }.compute cpu.rom[cpu.pc.toNat]
            exact .executed next.1 next.2.core next.2.pc hlt
              (fun h => Bool.false_ne_true (hlacks.1 h).2) (fun _ h => read_compute _ _ h)
  · rw [step, dif_neg hlt]
    exact .noWord (Nat.le_of_not_lt hlt)

theorem outcome_of_step_eq {cpu : Cpu} {result : Except Fault Status × Cpu}
    (h : cpu.step = result) : cpu.Outcome result := by
  rw [← h]
  exact cpu.outcome_step

theorem Outcome.rom_eq {cpu : Cpu} {result : Except Fault Status × Cpu} (h : cpu.Outcome result) :
    result.2.rom = cpu.rom := by
  cases h <;> rfl

/-- A step finds no word exactly where there is none, and leaves the computer as it is. -/
theorem step_eq_pcOutOfRange_iff {cpu next : Cpu} {pc : Word} :
    cpu.step = (.error (.pcOutOfRange pc), next) ↔
      cpu.rom.size ≤ cpu.pc.toNat ∧ pc = cpu.pc ∧ next = cpu := by
  constructor
  · intro h
    cases outcome_of_step_eq h with
    | noWord hsize => exact ⟨hsize, rfl, rfl⟩
  · rintro ⟨hsize, rfl, rfl⟩
    rw [step, dif_neg (Nat.not_lt.2 hsize)]

/-- A step finds no cell exactly where its word needs one and there is none, and counts a cycle. -/
theorem step_eq_addressOutOfRange_iff {cpu next : Cpu} {address pc : Word} :
    cpu.step = (.error (.addressOutOfRange address pc), next) ↔
      cpu.LacksCell ∧ address = cpu.a ∧ pc = cpu.pc ∧
        next = { cpu with cycles := cpu.cycles + 1 } := by
  constructor
  · intro h
    cases outcome_of_step_eq h with
    | noCell hlacks => exact ⟨hlacks, rfl, rfl, rfl⟩
  · rintro ⟨hlacks, rfl, rfl, rfl⟩
    obtain ⟨word, hword, -⟩ := id hlacks
    obtain ⟨hbit, hguard⟩ := (lacksCell_iff hword).1 hlacks
    rw [step_of_getElem? hword, execute_eq, hbit, hguard]
    rfl

theorem exists_step_eq_ok {cpu : Cpu} (hpc : cpu.pc.toNat < cpu.rom.size) (hcell : ¬cpu.LacksCell) :
    ∃ status next, cpu.step = (.ok status, next) ∧ next.cycles = cpu.cycles + 1 ∧
      ∀ address, address ≠ cpu.a → next.ram.read address = cpu.ram.read address := by
  have houtcome := cpu.outcome_step
  generalize cpu.step = result at houtcome
  cases houtcome with
  | noWord h => exact absurd hpc (Nat.not_lt.2 h)
  | noCell h => exact absurd h hcell
  | executed status core pc _ _ hram => exact ⟨status, _, rfl, rfl, hram⟩

inductive Call
  | step
  | run (limit : Nat)
  | setRam (address value : Word)
  deriving Repr, DecidableEq

def perform (cpu : Cpu) : Call → Cpu
  | .step => cpu.step.2
  | .run limit => (cpu.run limit).2
  | .setRam address value => cpu.setRam address value

def performAll (cpu : Cpu) (calls : List Call) : Cpu :=
  calls.foldl perform cpu

theorem rom_runWithin (limit budget : Nat) (cpu : Cpu) :
    (runWithin limit budget cpu).2.rom = cpu.rom := by
  induction budget generalizing cpu with
  | zero => rfl
  | succ budget ih =>
      rw [runWithin_succ]
      -- only a step that goes on is followed by another
      split
      · next hstep => exact (outcome_of_step_eq hstep).rom_eq
      · next hstep => exact (outcome_of_step_eq hstep).rom_eq
      · next next hstep => exact (ih next).trans (outcome_of_step_eq hstep).rom_eq

theorem rom_perform (cpu : Cpu) (call : Call) : (cpu.perform call).rom = cpu.rom := by
  cases call with
  | step => exact cpu.outcome_step.rom_eq
  | run limit => exact rom_runWithin limit limit cpu
  | setRam address value => rfl

theorem rom_performAll (cpu : Cpu) (calls : List Call) : (cpu.performAll calls).rom = cpu.rom := by
  induction calls generalizing cpu with
  | nil => rfl
  | cons call calls ih => exact (ih (cpu.perform call)).trans (cpu.rom_perform call)

/-- RAM has a cell at every address below 32768, and none elsewhere. -/
theorem read_setRam_self (cpu : Cpu) (address value : Word) :
    (cpu.setRam address value).ram.read address = if address.toNat < 32768 then value else 0 := by
  by_cases hlt : address.toNat < 32768
  · rw [if_pos hlt]
    exact Memory.read_write_self ((Memory.contains_iff address).2 hlt) _ _
  · have hcell : Memory.contains address = false :=
      Bool.eq_false_iff.2 fun hcell => hlt ((Memory.contains_iff address).1 hcell)
    rw [if_neg hlt]
    exact Memory.read_of_not_contains hcell _

/-- After any calls on a computer with any program loaded, failed calls included: RAM has 32768
cells and ROM is the program. The next step fails for want of a word exactly if the program counter
is not below the size of ROM, and then nothing changes. It fails for want of a cell exactly if its
word computes, reads or writes memory, and A is 32768 or more; then a cycle is counted and nothing
else changes. Otherwise it succeeds, a cycle is counted, and no cell changes but the one at A. -/
theorem step_of_performAll (code : MachineCode) (calls : List Call) :
    let cpu := (load code).performAll calls
    cpu.rom = code.words ∧ cpu.ram.cells.toArray.size = 32768 ∧
    (∀ address value, (cpu.setRam address value).ram.read address =
      if address.toNat < 32768 then value else 0) ∧
    (∀ pc next, cpu.step = (.error (.pcOutOfRange pc), next) ↔
      code.words.size ≤ cpu.pc.toNat ∧ pc = cpu.pc ∧ next = cpu) ∧
    (∀ address pc next, cpu.step = (.error (.addressOutOfRange address pc), next) ↔
      cpu.LacksCell ∧ address = cpu.a ∧ pc = cpu.pc ∧
        next = { cpu with cycles := cpu.cycles + 1 }) ∧
    (cpu.pc.toNat < code.words.size → ¬cpu.LacksCell →
      ∃ status next, cpu.step = (.ok status, next) ∧ next.rom = code.words ∧
        next.cycles = cpu.cycles + 1 ∧
        ∀ address, address ≠ cpu.a → next.ram.read address = cpu.ram.read address) := by
  intro cpu
  have hrom : cpu.rom = code.words := rom_performAll (load code) calls
  rw [← hrom]
  refine ⟨rfl, Vector.size_toArray _, read_setRam_self cpu, fun pc next => step_eq_pcOutOfRange_iff,
    fun address pc next => step_eq_addressOutOfRange_iff, fun hpc hcell => ?_⟩
  obtain ⟨status, next, hstep, hcycles, hram⟩ := exists_step_eq_ok hpc hcell
  exact ⟨status, next, hstep, (rom_cycles_of_step hstep).1, hcycles, hram⟩

/-- A program whose second word writes to the cell at -1. It fails there again and again, and only
the count of cycles tells how often. -/
theorem step_of_performAll_past_memory :
    let cpu := (load ⟨#[0xEEA0, 0xEFC8]⟩).performAll [.run 10, .setRam 0xFFFF 7, .step]
    (cpu.a, cpu.d, cpu.pc, cpu.cycles) = (0xFFFF, 0, 1, 3) ∧
      cpu.step = (.error (.addressOutOfRange 0xFFFF 1), { cpu with cycles := 4 }) := by
  intro cpu
  obtain ⟨-, -, -, -, hcell, -⟩ := step_of_performAll ⟨#[0xEEA0, 0xEFC8]⟩
    [.run 10, .setRam 0xFFFF 7, .step]
  have hlacks : cpu.LacksCell := ⟨0xEFC8, rfl, rfl, .inr rfl, by decide⟩
  exact ⟨rfl, (hcell _ _ _).2 ⟨hlacks, rfl, rfl, rfl⟩⟩

end Cpu

end Machine

end HackToolchain
