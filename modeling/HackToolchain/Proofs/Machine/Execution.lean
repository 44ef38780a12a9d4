import HackToolchain.Machine.Run
import HackToolchain.Proofs.Machine.Computation

/-!
# Paths of the computer

A core is what instructions compute on: the two registers and RAM. `Cpu.step` is described by what
it does to the core. A path is a number of steps without a fault, and its last state is determined
by its first. A run follows a path of steps that go on, until one of its steps does not.
-/

namespace HackToolchain

namespace Machine

/-- What instructions compute on. -/
structure Core where
  a : Word
  d : Word
  ram : Memory

namespace Core

def source (core : Core) (comp : Comp) : Word :=
  if comp.readsMemory then core.ram.read core.a else core.a

def out (core : Core) (comp : Comp) : Word :=
  comp.value core.d (core.source comp)

def store (core : Core) (dest : Dest) (value : Word) : Core where
  a := if dest.a then value else core.a
  d := if dest.d then value else core.d
  ram := if dest.m then core.ram.write core.a value else core.ram

end Core

namespace Status

def IsRunning (status : Status) : Prop :=
  status = .running

theorem isRunning_running : running.IsRunning := rfl

def IsAny (_ : Status) : Prop :=
  True

theorem isAny (status : Status) : status.IsAny := trivial

end Status

namespace Cpu

def core (cpu : Cpu) : Core :=
  ⟨cpu.a, cpu.d, cpu.ram⟩

def advance (cpu : Cpu) (core : Core) (pc : Word) : Cpu where
  rom := cpu.rom
  ram := core.ram
  a := core.a
  d := core.d
  pc := pc
  cycles := cpu.cycles + 1

@[simp] theorem rom_advance (cpu : Cpu) (core : Core) (pc : Word) :
    (cpu.advance core pc).rom = cpu.rom := rfl

@[simp] theorem core_advance (cpu : Cpu) (core : Core) (pc : Word) :
    (cpu.advance core pc).core = core := rfl

@[simp] theorem pc_advance (cpu : Cpu) (core : Core) (pc : Word) :
    (cpu.advance core pc).pc = pc := rfl

@[simp] theorem ram_core (cpu : Cpu) : cpu.core.ram = cpu.ram := rfl

@[simp] theorem a_core (cpu : Cpu) : cpu.core.a = cpu.a := rfl

theorem step_of_getElem? {cpu : Cpu} {word : Word} (h : cpu.rom[cpu.pc.toNat]? = some word) :
    cpu.step = execute { cpu with cycles := cpu.cycles + 1 } word := by
  obtain ⟨hlt, hword⟩ := Array.getElem?_eq_some_iff.1 h
  rw [step, dif_pos hlt, hword]

theorem step_load {cpu : Cpu} {word : Word} (h : cpu.rom[cpu.pc.toNat]? = some word)
    (hword : word ≤ MemoryMap.maxAddress) :
    cpu.step = (.ok .running, cpu.advance { cpu.core with a := word } (cpu.pc + 1)) := by
  have hbit : word.bit 15 = false := by
    rw [Word.bit_fifteen, decide_eq_false_iff_not]
    have hle : word.toNat ≤ 32767 := UInt16.le_iff_toNat_le.1 hword
    omega
  rw [step_of_getElem? h, execute_eq, hbit]
  rfl

def haltsOn (cpu : Cpu) (c : Computation) : Bool :=
  c.jumps (cpu.core.out c.comp) && c.isPlainJump && closesLoop cpu.rom cpu.pc cpu.a

theorem step_compute {cpu : Cpu} {c : Computation} (h : cpu.rom[cpu.pc.toNat]? = some c.word)
    (hcell : c.usesMemory = true → Memory.contains cpu.a = true) :
    cpu.step = (.ok (if cpu.haltsOn c then .halted else .running),
      cpu.advance (cpu.core.store c.dest (cpu.core.out c.comp))
        (if c.jumps (cpu.core.out c.comp) then cpu.a else cpu.pc + 1)) := by
  have hguard : (c.usesMemory && !Memory.contains cpu.a) = false := by
    cases hm : c.usesMemory with
    | false => rfl
    | true => simp [hcell hm]
  obtain ⟨hreads, ha, hd, hm⟩ := c.word_fields
  have hresult : result { cpu with cycles := cpu.cycles + 1 } c.word = cpu.core.out c.comp := by
    rw [result, c.alu_word, hreads]
    rfl
  rw [step_of_getElem? h, execute_eq, c.word_bit_fifteen, c.usesMemory_word, hguard]
  simp only [compute, hresult, c.jumpsOn_word, c.isPlainJump_word, ha, hd, hm]
  rfl

theorem rom_cycles_of_step {cpu next : Cpu} {status : Status}
    (h : cpu.step = (.ok status, next)) : next.rom = cpu.rom ∧ next.cycles = cpu.cycles + 1 := by
  rw [step] at h
  split at h
  · rw [execute_eq] at h
    split at h
    · cases h
      exact ⟨rfl, rfl⟩
    · split at h
      · simp at h
      · cases h
        exact ⟨rfl, rfl⟩
  · simp at h

/-- Steps whose statuses are allowed lead from one state to another. -/
inductive Path (allowed : Status → Prop) : Nat → Cpu → Cpu → Prop
  | refl (cpu : Cpu) : Path allowed 0 cpu cpu
  | cons {n : Nat} {cpu next final : Cpu} {status : Status} (h : cpu.step = (.ok status, next))
      (hstatus : allowed status) (rest : Path allowed n next final) : Path allowed (n + 1) cpu final

namespace Path

variable {allowed : Status → Prop} {m n : Nat} {cpu mid final : Cpu}

theorem single {status : Status} (h : cpu.step = (.ok status, final)) (hstatus : allowed status) :
    Path allowed 1 cpu final :=
  .cons h hstatus (.refl final)

theorem trans (h : Path allowed m cpu mid) (h' : Path allowed n mid final) :
    Path allowed (m + n) cpu final := by
  induction h with
  | refl => simpa using h'
  | cons hstep hstatus _ ih =>
      rw [Nat.add_right_comm]
      exact .cons hstep hstatus (ih h')

theorem exists_mid (h : Path allowed (m + n) cpu final) :
    ∃ mid, Path allowed m cpu mid ∧ Path allowed n mid final := by
  induction m generalizing cpu with
  | zero => exact ⟨cpu, .refl cpu, by simpa using h⟩
  | succ m ih =>
      rw [Nat.add_right_comm] at h
      cases h with
      | cons hstep hstatus rest =>
          obtain ⟨mid, first, second⟩ := ih rest
          exact ⟨mid, .cons hstep hstatus first, second⟩

theorem mono {allowed' : Status → Prop} (h : ∀ status, allowed status → allowed' status)
    (path : Path allowed n cpu final) : Path allowed' n cpu final := by
  induction path with
  | refl => exact .refl _
  | cons hstep hstatus _ ih => exact .cons hstep (h _ hstatus) ih

/-- Where a path ends does not depend on the statuses that are allowed. -/
theorem unique {allowed' : Status → Prop} {final' : Cpu} (h : Path allowed n cpu final)
    (h' : Path allowed' n cpu final') : final = final' := by
  induction h with
  | refl =>
      cases h'
      rfl
  | cons hstep _ _ ih =>
      cases h' with
      | cons hstep' _ rest' =>
          rw [hstep] at hstep'
          obtain ⟨-, rfl⟩ := Prod.mk.inj hstep'
          exact ih rest'

theorem rom_eq (h : Path allowed n cpu final) : final.rom = cpu.rom := by
  induction h with
  | refl => rfl
  | cons hstep _ _ ih => rw [ih, (rom_cycles_of_step hstep).1]

theorem cycles_eq (h : Path allowed n cpu final) : final.cycles = cpu.cycles + n := by
  induction h with
  | refl => rfl
  | cons hstep _ _ ih => rw [ih, (rom_cycles_of_step hstep).2, Nat.add_assoc, Nat.add_comm 1]

end Path

/-- A run follows a path of steps that go on. -/
theorem runWithin_of_path {n budget limit : Nat} {cpu final : Cpu}
    (h : Path Status.IsRunning n cpu final) :
    runWithin limit (n + budget) cpu = runWithin limit budget final := by
  induction h with
  | refl => rw [Nat.zero_add]
  | cons hstep hstatus _ ih =>
      obtain rfl : _ = Status.running := hstatus
      rw [Nat.add_right_comm, runWithin_succ, hstep]
      exact ih

/-- A run ends after a path of steps that go on, either before a step that does not or where the
budget is used up. -/
theorem exists_path_of_runWithin_eq {limit budget : Nat} {result : Except Fault Nat}
    {cpu final : Cpu} (h : runWithin limit budget cpu = (result, final)) :
    (∃ n < budget, ∃ mid, Path Status.IsRunning n cpu mid ∧
      (mid.step = (.ok .halted, final) ∧ result = .ok final.cycles ∨
        ∃ fault, mid.step = (.error fault, final) ∧ result = .error fault)) ∨
    (Path Status.IsRunning budget cpu final ∧ result = .error (.cycleLimit limit)) := by
  induction budget generalizing cpu with
  | zero =>
      obtain ⟨rfl, rfl⟩ := Prod.mk.inj h
      exact .inr ⟨.refl cpu, rfl⟩
  | succ budget ih =>
      rw [runWithin_succ] at h
      split at h
      · next fault next hstep =>
          obtain ⟨rfl, rfl⟩ := Prod.mk.inj h
          exact .inl ⟨0, Nat.succ_pos budget, cpu, .refl cpu, .inr ⟨fault, hstep, rfl⟩⟩
      · next next hstep =>
          obtain ⟨rfl, rfl⟩ := Prod.mk.inj h
          exact .inl ⟨0, Nat.succ_pos budget, cpu, .refl cpu, .inl ⟨hstep, rfl⟩⟩
      · next next hstep =>
          rcases ih h with ⟨n, hn, mid, path, hend⟩ | ⟨path, hresult⟩
          · exact .inl ⟨n + 1, Nat.succ_lt_succ hn, mid,
              .cons hstep Status.isRunning_running path, hend⟩
          · exact .inr ⟨.cons hstep Status.isRunning_running path, hresult⟩

/-- A run ends when the step after a path halts, if the budget reaches that far. -/
theorem run_of_path {n limit : Nat} {cpu mid final : Cpu} (h : Path Status.IsRunning n cpu mid)
    (hstep : mid.step = (.ok .halted, final)) (hlimit : n + 1 ≤ limit) :
    cpu.run limit = (.ok (cpu.cycles + n + 1), final) := by
  obtain ⟨budget, rfl⟩ := Nat.exists_eq_add_of_le hlimit
  have hbudget : n + 1 + budget = n + (budget + 1) := by omega
  have hcycles : final.cycles = cpu.cycles + n + 1 := by
    rw [(rom_cycles_of_step hstep).2, h.cycles_eq]
  rw [run, hbudget, runWithin_of_path h, runWithin_succ, hstep]
  simp only [hcycles]

end Cpu

end Machine

end HackToolchain
