import HackToolchain.Proofs.Machine.Halting

/-!
# How a run ends

A run is iterated step. It ends in one of three ways: a step halts, a step fails, or all steps go on
until the budget is used up. In the third case the run can be resumed, and the two runs together do
what one run with both budgets does. A computer that has halted in an endless loop halts again
whenever it is resumed with a budget for the two instructions of the loop.
-/

namespace HackToolchain

namespace Machine

/-- The fault with another limit, where it names one. -/
def Fault.withLimit (limit : Nat) : Fault → Fault
  | cycleLimit _ => cycleLimit limit
  | fault => fault

namespace Cpu

variable {cpu mid final : Cpu}

/-- The ways in which a run with a limit ends. -/
inductive Ends (limit : Nat) (cpu : Cpu) : Except Fault Nat → Cpu → Prop
  | halts {n : Nat} {mid final : Cpu} (hlt : n < limit) (path : Path Status.IsRunning n cpu mid)
      (h : mid.step = (.ok .halted, final)) : Ends limit cpu (.ok (cpu.cycles + n + 1)) final
  | fails {n : Nat} {mid final : Cpu} {fault : Fault} (hlt : n < limit)
      (path : Path Status.IsRunning n cpu mid) (h : mid.step = (.error fault, final)) :
      Ends limit cpu (.error fault) final
  | exhausts {final : Cpu} (path : Path Status.IsRunning limit cpu final) :
      Ends limit cpu (.error (.cycleLimit limit)) final

theorem ne_cycleLimit_of_step {fault : Fault} (h : cpu.step = (.error fault, final)) (limit : Nat) :
    fault ≠ .cycleLimit limit := by
  rintro rfl
  rw [step] at h
  split at h
  · rw [execute_eq] at h
    split at h
    · simp at h
    · split at h <;> simp at h
  · simp at h

/-- A run ends before the step that fails, if the budget reaches that far. -/
theorem run_of_path_of_fails {n limit : Nat} {fault : Fault}
    (path : Path Status.IsRunning n cpu mid) (hstep : mid.step = (.error fault, final))
    (hlt : n < limit) : cpu.run limit = (.error fault, final) := by
  obtain ⟨budget, rfl⟩ := Nat.exists_eq_add_of_lt hlt
  rw [run, Nat.add_assoc n budget 1, runWithin_of_path path, runWithin_succ, hstep]

theorem run_of_exhausting_path {limit : Nat} (path : Path Status.IsRunning limit cpu final) :
    cpu.run limit = (.error (.cycleLimit limit), final) := by
  have hrun : runWithin limit (limit + 0) cpu = runWithin limit 0 final := runWithin_of_path path
  rwa [Nat.add_zero, runWithin_zero] at hrun

/-- A run ends in one of the three ways, and in each of them it ends so. -/
theorem run_eq_iff {limit : Nat} {result : Except Fault Nat} :
    cpu.run limit = (result, final) ↔ Ends limit cpu result final := by
  constructor
  · intro h
    rcases exists_path_of_runWithin_eq h with
      ⟨n, hn, mid, path, ⟨hstep, rfl⟩ | ⟨fault, hstep, rfl⟩⟩ | ⟨path, rfl⟩
    · have hcycles : final.cycles = cpu.cycles + n + 1 := by
        rw [(rom_cycles_of_step hstep).2, path.cycles_eq]
      exact hcycles ▸ .halts hn path hstep
    · exact .fails hn path hstep
    · exact .exhausts path
  · rintro (⟨hlt, path, hstep⟩ | ⟨hlt, path, hstep⟩ | path)
    · exact run_of_path path hstep hlt
    · exact run_of_path_of_fails path hstep hlt
    · exact run_of_exhausting_path path

theorem run_eq_cycleLimit_iff {limit named : Nat} :
    cpu.run limit = (.error (.cycleLimit named), final) ↔
      named = limit ∧ Path Status.IsRunning limit cpu final := by
  rw [run_eq_iff]
  constructor
  · rintro (_ | ⟨-, -, hstep⟩ | path)
    · exact absurd rfl (ne_cycleLimit_of_step hstep named)
    · exact ⟨rfl, path⟩
  · rintro ⟨rfl, path⟩
    exact .exhausts path

/-- The name of the limit is all that a run takes from it. -/
theorem runWithin_withLimit (limit named budget : Nat) (cpu : Cpu) :
    runWithin limit budget cpu =
      ((runWithin named budget cpu).1.mapError (Fault.withLimit limit),
        (runWithin named budget cpu).2) := by
  induction budget generalizing cpu with
  | zero => rfl
  | succ budget ih =>
      rw [runWithin_succ, runWithin_succ]
      split
      · next fault next hstep =>
          have hfault : fault.withLimit limit = fault := by
            cases fault with
            | cycleLimit other => exact absurd rfl (ne_cycleLimit_of_step hstep other)
            | _ => rfl
          simp [Except.mapError, hfault]
      · rfl
      · exact ih _

/-- A run whose budget is used up and one that resumes it are together one run with both budgets. -/
theorem run_add_of_path {n : Nat} (path : Path Status.IsRunning n cpu mid) (m : Nat) :
    cpu.run (n + m) = ((mid.run m).1.mapError (Fault.withLimit (n + m)), (mid.run m).2) := by
  rw [run, runWithin_of_path path]
  exact runWithin_withLimit (n + m) m m mid

/-- Whether a computer that has just halted goes round its loop again: one step on, and from wherever
the registers and RAM are the same there, one step back that halts. -/
structure HaltsAgain (home : Cpu) : Prop where
  go : home.step = (.ok .running, home.advance home.core (home.pc + 1))
  back : ∀ cpu : Cpu, cpu.rom = home.rom → cpu.core = home.core → cpu.pc = home.pc + 1 →
    cpu.step = (.ok .halted, cpu.advance cpu.core home.pc)

theorem haltsAgain_of_halted (h : cpu.step = (.ok .halted, final))
    (hsize : final.rom.size ≤ MemoryMap.romSize + 1) : final.HaltsAgain := by
  have hle := pc_le_of_halted h hsize
  obtain ⟨word, -, -, -, hcloses, rfl⟩ := exists_word_of_step_halted h
  obtain ⟨-, ha, hself⟩ := closesLoop_iff.1 hcloses
  have hback : cpu.a + 1 = cpu.pc := by rw [ha, UInt16.sub_add_cancel]
  constructor
  · exact step_load hself hle
  · intro other hrom hcore hpc
    rw [hcore]
    exact step_of_core_eq h hrom hcore (hpc.trans hback)

/-- One more run: the cycles that the last run without a fault has given, and the computer. -/
def resume (last : Nat × Cpu) (limit : Nat) : Nat × Cpu :=
  match last.2.run limit with
  | (.ok cycles, next) => (cycles, next)
  | (.error _, next) => (last.1, next)

def resumeAll (last : Nat × Cpu) (limits : List Nat) : Nat × Cpu :=
  limits.foldl resume last

/-- The computer is in a loop of two instructions: it is at `home`, where the last run without a fault
has left it, or one instruction on. -/
structure IsLooping (home : Cpu) (last : Nat × Cpu) : Prop where
  rom : last.2.rom = home.rom
  core : last.2.core = home.core
  place : last.2.pc = home.pc ∧ last.2.cycles = last.1 ∨
    last.2.pc = home.pc + 1 ∧ last.2.cycles = last.1 + 1

namespace IsLooping

variable {home : Cpu} {last : Nat × Cpu} (hagain : home.HaltsAgain) (h : IsLooping home last)
include hagain h

theorem step_home (hpc : last.2.pc = home.pc) :
    last.2.step = (.ok .running, last.2.advance home.core (home.pc + 1)) :=
  step_of_core_eq hagain.go h.rom h.core hpc

theorem run_back (hpc : last.2.pc = home.pc + 1) (hcycles : last.2.cycles = last.1 + 1) {limit : Nat}
    (hlimit : 1 ≤ limit) :
    last.2.run limit = (.ok (last.1 + 2), last.2.advance last.2.core home.pc) := by
  have hrun := run_of_path (.refl last.2) (hagain.back last.2 h.rom h.core hpc) hlimit
  rwa [hcycles] at hrun

/-- A run with a budget for both instructions comes home and has counted two more cycles. -/
theorem exists_run {limit : Nat} (hlimit : 2 ≤ limit) :
    ∃ next, last.2.run limit = (.ok (last.1 + 2), next) ∧ next.core = home.core ∧
      next.pc = home.pc ∧ IsLooping home (last.1 + 2, next) := by
  rcases h.place with ⟨hpc, hcycles⟩ | ⟨hpc, hcycles⟩
  · let mid := last.2.advance home.core (home.pc + 1)
    have hhalts : mid.step = (.ok .halted, mid.advance home.core home.pc) :=
      hagain.back mid h.rom rfl rfl
    have hrun := run_of_path (.single (h.step_home hagain hpc) Status.isRunning_running) hhalts
      hlimit
    rw [hcycles] at hrun
    refine ⟨_, hrun, rfl, rfl, h.rom, rfl, .inl ⟨rfl, ?_⟩⟩
    exact congrArg (· + 2) hcycles
  · refine ⟨_, h.run_back hagain hpc hcycles (Nat.le_of_succ_le hlimit), h.core, rfl, h.rom, h.core,
      .inl ⟨rfl, ?_⟩⟩
    exact congrArg (· + 1) hcycles

theorem resume (limit : Nat) : IsLooping home (Cpu.resume last limit) := by
  match limit with
  | 0 => exact h
  | 1 =>
      rcases h.place with ⟨hpc, hcycles⟩ | ⟨hpc, hcycles⟩
      · have hrun := run_of_exhausting_path
          (.single (h.step_home hagain hpc) Status.isRunning_running)
        rw [Cpu.resume, hrun]
        exact ⟨h.rom, rfl, .inr ⟨rfl, congrArg (· + 1) hcycles⟩⟩
      · rw [Cpu.resume, h.run_back hagain hpc hcycles (Nat.le_refl 1)]
        exact ⟨h.rom, h.core, .inl ⟨rfl, congrArg (· + 1) hcycles⟩⟩
  | limit + 2 =>
      obtain ⟨next, hrun, -, -, hnext⟩ := h.exists_run hagain (Nat.le_add_left 2 limit)
      rw [Cpu.resume, hrun]
      exact hnext

theorem resumeAll (limits : List Nat) : IsLooping home (Cpu.resumeAll last limits) := by
  induction limits generalizing last with
  | nil => exact h
  | cons limit limits ih => exact ih (h.resume hagain limit)

end IsLooping

end Cpu

end Machine

end HackToolchain
