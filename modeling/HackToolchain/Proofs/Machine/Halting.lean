import HackToolchain.Proofs.Machine.Execution

/-!
# Halting

A step halts when it is a plain jump to the instruction before it and the word of that instruction is
its own address. If that word loads an address then the computer is in an endless loop: it goes back
and forth between the two instructions, and neither a register nor RAM ever changes.
-/

namespace HackToolchain

namespace Machine

theorem bit_of_isPlainJump {word i : Word} (h : isPlainJump word = true)
    (hi : (0b111000 : Word).bit i = true) : word.bit i = false := by
  simp only [isPlainJump, Bool.and_eq_true, beq_iff_eq] at h
  have hbit := congrArg (Word.bit · i) h.2
  have hzero : (0 : Word).bit i = false := by simp [Word.bit]
  simpa [Word.bit_and, hi, hzero] using hbit

namespace Cpu

variable {cpu next : Cpu} {status : Status}

theorem closesLoop_iff {rom : Array Word} {pc target : Word} :
    closesLoop rom pc target = true ↔
      0 < pc ∧ target = pc - 1 ∧ rom[target.toNat]? = some target := by
  simp [closesLoop, and_assoc]

theorem exists_word_of_step (h : cpu.step = (.ok status, next)) :
    ∃ word, cpu.rom[cpu.pc.toNat]? = some word ∧
      execute { cpu with cycles := cpu.cycles + 1 } word = (.ok status, next) := by
  rw [step] at h
  split at h
  · next hlt => exact ⟨_, Array.getElem?_eq_getElem hlt, h⟩
  · simp at h

/-- A word is executed without a fault if it loads itself, or if it computes and its memory word is a
cell. -/
theorem execute_eq_ok_iff {word : Word} :
    cpu.execute word = (.ok status, next) ↔
      (word.bit 15 = false ∧ .running = status ∧ { cpu with a := word, pc := cpu.pc + 1 } = next) ∨
        (word.bit 15 = true ∧ (usesMemory word && !Memory.contains cpu.a) = false ∧
          cpu.compute word = (status, next)) := by
  rw [execute_eq]
  cases word.bit 15 with
  | false => simp
  | true => cases usesMemory word && !Memory.contains cpu.a <;> simp [Prod.ext_iff]

theorem step_of_core_eq {other : Cpu} {core : Core} {pc : Word}
    (h : cpu.step = (.ok status, cpu.advance core pc)) (hrom : other.rom = cpu.rom)
    (hcore : other.core = cpu.core) (hpc : other.pc = cpu.pc) :
    other.step = (.ok status, other.advance core pc) := by
  obtain ⟨ha, hd, hram⟩ := Core.mk.inj hcore
  obtain ⟨word, hword, hexecute⟩ := exists_word_of_step h
  rw [← hrom, ← hpc] at hword
  rw [step_of_getElem? hword]
  rw [execute_eq_ok_iff] at hexecute ⊢
  simpa [compute, result, advance, ha, hd, hram, hrom, hpc] using hexecute

/-- A step that halts is a plain jump that closes a loop. -/
theorem exists_word_of_step_halted (h : cpu.step = (.ok .halted, next)) :
    ∃ word, cpu.rom[cpu.pc.toNat]? = some word ∧ word.bit 15 = true ∧ isPlainJump word = true ∧
      closesLoop cpu.rom cpu.pc cpu.a = true ∧ next = cpu.advance cpu.core cpu.a := by
  obtain ⟨word, hword, hexecute⟩ := exists_word_of_step h
  rcases execute_eq_ok_iff.1 hexecute with ⟨-, hstatus, -⟩ | ⟨hbit, -, hcompute⟩
  · cases hstatus
  · obtain ⟨hstatus, hnext⟩ := Prod.mk.inj hcompute
    have hhalts := Decidable.by_contra fun hrunning => by
      rw [if_neg hrunning] at hstatus
      cases hstatus
    simp only [Bool.and_eq_true] at hhalts
    obtain ⟨⟨hjumps, hplain⟩, hcloses⟩ := hhalts
    refine ⟨word, hword, hbit, hplain, hcloses, ?_⟩
    rw [← hnext, hjumps, bit_of_isPlainJump hplain (i := 3) rfl,
      bit_of_isPlainJump hplain (i := 4) rfl, bit_of_isPlainJump hplain (i := 5) rfl]
    rfl

theorem exists_path_of_runWithin {limit budget cycles : Nat} {final : Cpu}
    (h : runWithin limit budget cpu = (.ok cycles, final)) :
    ∃ n mid, Path Status.IsRunning n cpu mid ∧ mid.step = (.ok .halted, final) := by
  rcases exists_path_of_runWithin_eq h with
    ⟨n, -, mid, path, ⟨hstep, -⟩ | ⟨_, -, hresult⟩⟩ | ⟨-, hresult⟩
  · exact ⟨n, mid, path, hstep⟩
  · cases hresult
  · cases hresult

/-- Whether any number of further steps succeed and the registers and RAM stay as they are, while the
program counter goes back and forth between its address and the next. -/
def LoopsForever (cpu : Cpu) : Prop :=
  ∀ n, ∃ final, Path Status.IsAny n cpu final ∧ final.core = cpu.core ∧
    final.pc = if n % 2 = 0 then cpu.pc else cpu.pc + 1

/-- Two steps that change the program counter only, each to the address of the other, are an endless
loop. -/
theorem loopsForever_of_steps {other : Cpu} {status' : Status} (hrom : other.rom = cpu.rom)
    (hcore : other.core = cpu.core)
    (h : cpu.step = (.ok status, cpu.advance cpu.core other.pc))
    (h' : other.step = (.ok status', other.advance other.core cpu.pc)) :
    ∀ n, ∃ final, Path Status.IsAny n cpu final ∧ final.core = cpu.core ∧
      final.pc = if n % 2 = 0 then cpu.pc else other.pc := by
  intro n
  -- each step leads to a state that is like the other one but for its cycles
  induction n generalizing cpu other status status' with
  | zero => exact ⟨cpu, .refl cpu, rfl, rfl⟩
  | succ n ih =>
      let next := cpu.advance cpu.core other.pc
      have hnext : next.step = (.ok status', next.advance other.core cpu.pc) :=
        step_of_core_eq h' hrom.symm hcore.symm rfl
      rw [hcore] at hnext
      obtain ⟨final, path, hfinal, hpc⟩ := ih (by rfl) (by rfl) hnext h
      refine ⟨final, .cons h (Status.isAny _) path, hfinal, hpc.trans ?_⟩
      rcases Nat.mod_two_eq_zero_or_one n with heven | hodd
      · rw [if_pos heven, if_neg (by omega)]
        rfl
      · rw [if_neg (by omega), if_pos (by omega)]

theorem eq_advance_of_step (h : cpu.step = (.ok status, next)) :
    next = cpu.advance next.core next.pc := by
  obtain ⟨hrom, hcycles⟩ := rom_cycles_of_step h
  obtain ⟨rom, ram, a, d, pc, cycles⟩ := next
  obtain rfl : rom = cpu.rom := hrom
  obtain rfl : cycles = cpu.cycles + 1 := hcycles
  rfl

/-- After a step that halts the computer loops forever exactly when its next step goes on and changes
the program counter only. -/
theorem loopsForever_iff (h : cpu.step = (.ok .halted, next)) :
    next.LoopsForever ↔ next.step = (.ok .running, next.advance next.core (next.pc + 1)) := by
  obtain ⟨word, -, -, -, hcloses, hnext⟩ := exists_word_of_step_halted h
  obtain ⟨-, ha, -⟩ := closesLoop_iff.1 hcloses
  constructor
  · intro hloop
    obtain ⟨final, path, hcore, hpc⟩ := hloop 1
    rw [if_neg (by decide)] at hpc
    cases path with
    | @cons _ _ _ _ status hstep _ rest =>
        cases rest
        cases status with
        | running =>
            rw [hstep, eq_advance_of_step hstep, hcore, hpc]
        | halted =>
            -- it would be a jump to where the program counter is already
            obtain ⟨-, -, -, -, -, hfinal⟩ := exists_word_of_step_halted hstep
            rw [hfinal, hnext] at hpc
            exact absurd (UInt16.left_eq_add.1 hpc) (by decide)
  · intro hstep
    have hback : next.pc + 1 = cpu.pc := by
      rw [hnext, pc_advance, ha, UInt16.sub_add_cancel]
    rw [hback] at hstep
    have hjump : cpu.step = (.ok .halted, cpu.advance cpu.core next.pc) := by
      rw [h, hnext, pc_advance]
    have hloop := loopsForever_of_steps (by rw [hnext, rom_advance]) (by rw [hnext, core_advance])
      hstep hjump
    rwa [← hback] at hloop

/-- In a program with at most one word more than ROM has room for, the word that a step that halts goes
back to lies at an address that an instruction can load. -/
theorem pc_le_of_halted (h : cpu.step = (.ok .halted, next))
    (hsize : next.rom.size ≤ MemoryMap.romSize + 1) : next.pc ≤ MemoryMap.maxAddress := by
  obtain ⟨word, hword, -, -, hcloses, rfl⟩ := exists_word_of_step_halted h
  obtain ⟨hpos, ha, -⟩ := closesLoop_iff.1 hcloses
  have hlt : cpu.pc.toNat < cpu.rom.size := (Array.getElem?_eq_some_iff.1 hword).1
  have hsize : cpu.rom.size ≤ 32769 := hsize
  have hone : (1 : Word) ≤ cpu.pc := UInt16.le_iff_toNat_le.2 (UInt16.lt_iff_toNat_lt.1 hpos)
  have hnat : cpu.a.toNat = cpu.pc.toNat - 1 := by
    rw [ha, UInt16.toNat_sub_of_le _ _ hone]
    rfl
  have hle : cpu.a.toNat ≤ 32767 := by omega
  exact UInt16.le_iff_toNat_le.2 hle

/-- A step that halts changes no register and no cell, and goes back to a word that is its own
address. From there the computer loops forever exactly when that word changes nothing either and goes
on. So it does where the word loads an address, and in programs with at most one word more than ROM
has room for. -/
theorem loopsForever_of_halted (h : cpu.step = (.ok .halted, next)) :
    next.core = cpu.core ∧ next.pc + 1 = cpu.pc ∧ next.rom[next.pc.toNat]? = some next.pc ∧
    (next.LoopsForever ↔ next.step = (.ok .running, next.advance next.core (next.pc + 1))) ∧
    (next.pc ≤ MemoryMap.maxAddress → next.LoopsForever) ∧
    (next.rom.size ≤ MemoryMap.romSize + 1 → next.LoopsForever) := by
  obtain ⟨word, -, -, -, hcloses, rfl⟩ := exists_word_of_step_halted h
  obtain ⟨-, ha, hself⟩ := closesLoop_iff.1 hcloses
  have hback : cpu.a + 1 = cpu.pc := by rw [ha, UInt16.sub_add_cancel]
  have hiff := loopsForever_iff h
  have hload (hle : cpu.a ≤ MemoryMap.maxAddress) : (cpu.advance cpu.core cpu.a).LoopsForever := by
    rw [hiff]
    exact step_load hself hle
  exact ⟨rfl, hback, hself, hiff, hload, fun hsize => hload (pc_le_of_halted h hsize)⟩

/-- A loop of two instructions, with its second one about to be executed. -/
theorem loopsForever_of_halted_jump :
    ∃ next, (⟨#[0, 0xEA87], .zero, 0, 7, 1, 0⟩ : Cpu).step = (.ok .halted, next) ∧
      next.LoopsForever := by
  have hstep : (⟨#[0, 0xEA87], .zero, 0, 7, 1, 0⟩ : Cpu).step =
      (.ok .halted, ⟨#[0, 0xEA87], .zero, 0, 7, 0, 1⟩) := rfl
  exact ⟨_, hstep, (loopsForever_of_halted hstep).2.2.2.2.2 (by decide)⟩

/-- Three words that go to a jump behind a word that is its own address and adds A to D. The jump
halts, and the next step changes D. -/
theorem exists_halted_of_words (rom : Array Word) (hload : rom[(0 : Word).toNat]? = some 0x1F6E)
    (hnegate : rom[(1 : Word).toNat]? = some 0xEC60) (hgo : rom[(2 : Word).toNat]? = some 0xECA7)
    (hself : rom[(0xE090 : Word).toNat]? = some 0xE090)
    (hjump : rom[(0xE091 : Word).toNat]? = some 0xEA87) :
    ∃ cpu mid final, Path Status.IsRunning 3 ⟨rom, .zero, 0, 0, 0, 0⟩ cpu ∧
      cpu.step = (.ok .halted, mid) ∧ mid.step = (.ok .running, final) ∧
      mid.d = 0 ∧ final.d = 0xE090 := by
  have hcloses : closesLoop rom 0xE091 0xE090 = true :=
    closesLoop_iff.2 ⟨by decide, by decide, hself⟩
  rw [show 0xEC60 = (Computation.assign ⟨true, false, false⟩ (.notSource .a)).word by decide]
    at hnegate
  rw [show 0xECA7 = (Computation.mk ⟨true, false, false⟩ (.decSource .a) (some .always)).word by
    decide] at hgo
  rw [show some 0xE090 = some (Computation.assign ⟨false, true, false⟩ (.add .a)).word by decide]
    at hself
  rw [show 0xEA87 = (Computation.branch .zero .always).word by decide] at hjump
  have hfirst : (⟨rom, .zero, 0, 0, 0, 0⟩ : Cpu).step =
      (.ok .running, ⟨rom, .zero, 0x1F6E, 0, 1, 1⟩) := step_load hload (by decide)
  have hsecond : (⟨rom, .zero, 0x1F6E, 0, 1, 1⟩ : Cpu).step =
      (.ok .running, ⟨rom, .zero, ~~~0x1F6E, 0, 2, 2⟩) := by
    rw [step_compute hnegate (fun h => absurd h (by decide))]
    rfl
  have hthird : (⟨rom, .zero, 0xE091, 0, 2, 2⟩ : Cpu).step =
      (.ok .running, ⟨rom, .zero, 0xE091 - 1, 0, 0xE091, 3⟩) := by
    rw [step_compute hgo (fun h => absurd h (by decide))]
    rfl
  have hhalt : (⟨rom, .zero, 0xE090, 0, 0xE091, 3⟩ : Cpu).step =
      (.ok .halted, ⟨rom, .zero, 0xE090, 0, 0xE090, 4⟩) := by
    rw [step_compute hjump (fun h => absurd h (by decide)), haltsOn, hcloses]
    rfl
  have hnext : (⟨rom, .zero, 0xE090, 0, 0xE090, 4⟩ : Cpu).step =
      (.ok .running, ⟨rom, .zero, 0xE090, 0 + 0xE090, 0xE090 + 1, 5⟩) := by
    rw [step_compute hself (fun h => absurd h (by decide))]
    rfl
  rw [show ~~~(0x1F6E : Word) = 0xE091 by decide] at hsecond
  rw [show (0xE091 - 1 : Word) = 0xE090 by decide] at hthird
  exact ⟨_, _, _, .cons hfirst rfl (.cons hsecond rfl (.single hthird rfl)), hhalt, hnext, rfl,
    UInt16.zero_add 0xE090⟩

/-- A program with 57490 words, in which the step after the one that halts changes D. -/
theorem not_loopsForever_of_overlong :
    ∃ cpu mid final, Path Status.IsRunning 3
        (load ⟨#[0x1F6E, 0xEC60, 0xECA7] ++ Array.replicate 57485 0 ++ #[0xE090, 0xEA87]⟩) cpu ∧
      cpu.step = (.ok .halted, mid) ∧ mid.step = (.ok .running, final) ∧
      mid.d = 0 ∧ final.d = 0xE090 ∧ ¬mid.LoopsForever := by
  obtain ⟨cpu, mid, final, path, hhalt, hnext, hzero, hd⟩ := exists_halted_of_words
    (#[0x1F6E, 0xEC60, 0xECA7] ++ Array.replicate 57485 0 ++ #[0xE090, 0xEA87])
    (by simp) (by simp) (by simp) (by simp) (by simp)
  refine ⟨cpu, mid, final, path, hhalt, hnext, hzero, hd, fun hloop => ?_⟩
  have hgoes := (loopsForever_iff hhalt).1 hloop
  rw [hnext] at hgoes
  have hcore : final.core = mid.core := by rw [(Prod.mk.inj hgoes).2, core_advance]
  have hsame : final.d = mid.d := congrArg Core.d hcore
  rw [hzero, hd] at hsame
  exact absurd hsame (by decide)

end Cpu

end Machine

end HackToolchain
