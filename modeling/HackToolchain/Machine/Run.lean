import HackToolchain.Machine.Step

/-!
# Running a program

A run executes instructions until one halts, one fails, or as many as its budget allows were
executed. The budget is looked at before each instruction, so a budget of zero executes none.
-/

namespace HackToolchain

namespace Machine

namespace Cpu

/-- Runs for at most `budget` more instructions and reports `limit` when they are used up. -/
def runWithin (limit : Nat) : Nat → Cpu → Except Fault Nat × Cpu
  | 0, cpu => (.error (.cycleLimit limit), cpu)
  | budget + 1, cpu =>
    match cpu.step with
    | (.error fault, next) => (.error fault, next)
    | (.ok .halted, next) => (.ok next.cycles, next)
    | (.ok .running, next) => runWithin limit budget next

/-- Runs until the program halts and gives the number of instructions executed since it was loaded,
or gives the fault that stopped it. -/
def run (cpu : Cpu) (maxCycles : Nat) : Except Fault Nat × Cpu :=
  runWithin maxCycles maxCycles cpu

@[simp] theorem runWithin_zero (limit : Nat) (cpu : Cpu) :
    runWithin limit 0 cpu = (.error (.cycleLimit limit), cpu) := rfl

theorem runWithin_succ (limit budget : Nat) (cpu : Cpu) :
    runWithin limit (budget + 1) cpu =
      match cpu.step with
      | (.error fault, next) => (.error fault, next)
      | (.ok .halted, next) => (.ok next.cycles, next)
      | (.ok .running, next) => runWithin limit budget next := rfl

end Cpu

end Machine

end HackToolchain
