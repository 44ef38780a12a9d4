import HackToolchain.Proofs.Assembly.Words
import HackToolchain.Proofs.Machine.Ending

/-!
# Runs that are resumed

How a run ends is said by its steps alone. So where a run is cut by its limit does not matter, and a
program that has halted can be run again and again: each run with a limit of at least two goes round
the loop in which the program ends.
-/

namespace HackToolchain

open Assembly Machine

/-- In assembled code, a computer that has halted goes round its loop again. -/
theorem haltsAgain_of_assemble {text : String} {code : MachineCode} (hcode : assemble text = .ok code)
    {mid final : Cpu} (hrom : final.rom = code.words) (h : mid.step = (.ok .halted, final)) :
    final.HaltsAgain := by
  obtain ⟨-, -, -, hsize, hcount, -⟩ := exists_encode_of_assemble hcode
  have hle : final.rom.size ≤ MemoryMap.romSize := by
    rw [hrom]
    exact Nat.le_trans (Nat.le_of_eq hcount) hsize
  exact Cpu.haltsAgain_of_halted h (Nat.le_succ_of_le hle)

/-- A run halts with the first step that halts and fails with the first step that fails, if all steps
before it go on and it is within the limit; otherwise as many steps as the limit says go on. A run
that has used up its limit and one that resumes it do what one run with the sum of the limits does.
After assembled code has halted, and whatever runs there were since then, a run with a limit of two or
more halts again, with two cycles more than the last run that halted and with the registers, the
program counter and RAM as they were. -/
theorem run_is_iterated_step (cpu : Cpu) :
    (∀ limit cycles final, cpu.run limit = (.ok cycles, final) ↔
      ∃ n < limit, ∃ mid, Cpu.Path Status.IsRunning n cpu mid ∧
        mid.step = (.ok .halted, final) ∧ cycles = cpu.cycles + n + 1) ∧
    (∀ limit fault final,
      (cpu.run limit = (.error fault, final) ∧ ∀ named, fault ≠ .cycleLimit named) ↔
        ∃ n < limit, ∃ mid, Cpu.Path Status.IsRunning n cpu mid ∧
          mid.step = (.error fault, final)) ∧
    (∀ limit named final, cpu.run limit = (.error (.cycleLimit named), final) ↔
      named = limit ∧ Cpu.Path Status.IsRunning limit cpu final) ∧
    (∀ n m mid, cpu.run n = (.error (.cycleLimit n), mid) →
      cpu.run (n + m) = ((mid.run m).1.mapError (Fault.withLimit (n + m)), (mid.run m).2)) ∧
    (∀ text code, assemble text = .ok code → cpu.rom = code.words →
      ∀ limit cycles final, cpu.run limit = (.ok cycles, final) →
        ∀ limits limit', 2 ≤ limit' → ∃ next : Cpu,
          (Cpu.resumeAll (cycles, final) limits).2.run limit' =
            (.ok ((Cpu.resumeAll (cycles, final) limits).1 + 2), next) ∧
          next.core = final.core ∧ next.pc = final.pc) := by
  refine ⟨fun limit cycles final => ?_, fun limit fault final => ?_,
    fun limit named final => Cpu.run_eq_cycleLimit_iff, fun n m mid hrun => ?_,
    fun text code hcode hrom limit cycles final hrun limits limit' hlimit => ?_⟩
  · rw [Cpu.run_eq_iff]
    constructor
    · rintro ⟨hlt, path, hstep⟩
      exact ⟨_, hlt, _, path, hstep, rfl⟩
    · rintro ⟨n, hlt, mid, path, hstep, rfl⟩
      exact .halts hlt path hstep
  · rw [Cpu.run_eq_iff]
    constructor
    · rintro ⟨_ | ⟨hlt, path, hstep⟩ | path, hfault⟩
      · exact ⟨_, hlt, _, path, hstep⟩
      · exact absurd rfl (hfault limit)
    · rintro ⟨n, hlt, mid, path, hstep⟩
      exact ⟨.fails hlt path hstep, Cpu.ne_cycleLimit_of_step hstep⟩
  · exact Cpu.run_add_of_path (Cpu.run_eq_cycleLimit_iff.1 hrun).2 m
  · obtain ⟨hlt, path, hstep⟩ := Cpu.run_eq_iff.1 hrun
    obtain ⟨hsame, hcycles⟩ := Cpu.rom_cycles_of_step hstep
    have hagain := haltsAgain_of_assemble hcode (hsame.trans (path.rom_eq.trans hrom)) hstep
    rw [path.cycles_eq] at hcycles
    have hloops : Cpu.IsLooping final (_, final) := ⟨rfl, rfl, .inl ⟨rfl, hcycles⟩⟩
    obtain ⟨next, hnext, hcore, hpc, -⟩ := (hloops.resumeAll hagain limits).exists_run hagain hlimit
    exact ⟨next, hnext, hcore, hpc⟩

/-- A program that loads a number and loops. Its run is cut before the jump that halts, and resumed;
then there are a run that is cut inside of the loop and two more that halt. -/
theorem run_is_iterated_step_loop :
    ∃ code mid final next, assemble "@5\nD=A\n(END)\n@END\n0;JMP\n" = .ok code ∧
      (Cpu.load code).run 3 = (.error (.cycleLimit 3), mid) ∧ mid.run 7 = (.ok 4, final) ∧
      (Cpu.load code).run 10 = (.ok 4, final) ∧
      (Cpu.resumeAll (4, final) [1, 2]).2.run 2 = (.ok 8, next) ∧
      next.core = final.core ∧ next.pc = final.pc := by
  obtain ⟨code, hcode, hwords⟩ : ∃ code, assemble "@5\nD=A\n(END)\n@END\n0;JMP\n" = .ok code ∧
      code = ⟨#[5, 0xEC10, 2, 0xEA87]⟩ :=
    ⟨⟨#[5, 0xEC10, 2, 0xEA87]⟩, by decide +kernel, rfl⟩
  have hcut : (Cpu.load code).run 3 =
      (.error (.cycleLimit 3), ⟨#[5, 0xEC10, 2, 0xEA87], .zero, 2, 5, 3, 3⟩) := by
    rw [hwords]
    rfl
  have hrest : (⟨#[5, 0xEC10, 2, 0xEA87], .zero, 2, 5, 3, 3⟩ : Cpu).run 7 =
      (.ok 4, ⟨#[5, 0xEC10, 2, 0xEA87], .zero, 2, 5, 2, 4⟩) := rfl
  obtain ⟨-, -, -, hresume, hloop⟩ := run_is_iterated_step (Cpu.load code)
  have hwhole := hresume 3 7 _ hcut
  rw [hrest] at hwhole
  obtain ⟨next, hnext, hcore, hpc⟩ := hloop _ code hcode rfl 10 4 _ hwhole [1, 2] 2 (Nat.le_refl 2)
  exact ⟨code, _, _, next, hcode, hcut, hrest, hwhole, hnext, hcore, hpc⟩

end HackToolchain
