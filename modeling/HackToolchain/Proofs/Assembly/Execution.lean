import HackToolchain.Proofs.Assembly.Image
import HackToolchain.Proofs.Machine.Execution

/-!
# Executing the image of a program

A computer whose ROM is an image executes the statements of that image. A place in the image is
given by the statements from there on, and `Leads` says that some number of steps lead from one
place and one core to others. Statements that do not jump are executed by a function on cores, a
jump to a label leads to the statements after the label.
-/

namespace HackToolchain

namespace Assembly

open Machine

namespace Image

variable {image : Image} {before rest rest' : List (Statement Computation)}

def address (image : Image) (symbol : String) : Word :=
  (address? image.statements symbol).getD 0

def value (image : Image) : Operand → Word
  | .number value => value
  | .symbol name => image.address name

theorem value_of_word? {operand : Operand} {word : Word}
    (h : (Instruction.address operand).word? (address? image.statements) = some word) :
    image.value operand = word ∧ word ≤ MemoryMap.maxAddress := by
  obtain ⟨hvalue, hle⟩ := Option.filter_eq_some_iff.1 h
  refine ⟨?_, of_decide_eq_true hle⟩
  cases operand with
  | number value => exact Option.some.inj hvalue
  | symbol name =>
      have hfound : address? image.statements name = some word := hvalue
      rw [value, address, hfound, Option.getD_some]

theorem getElem?_rom {i : Instruction Computation}
    (h : image.statements = before ++ .instruction i :: rest) :
    ∃ word, image.rom[codeSize before]? = some word ∧
      i.word? (address? image.statements) = some word := by
  have hcode : (code image.statements)[codeSize before]? = some i := by
    rw [h, code_append, codeSize, List.getElem?_append_right (Nat.le_refl _), Nat.sub_self]
    rfl
  have hword := congrArg (·[codeSize before]?) image.encoded
  simp only [List.getElem?_map, hcode, Option.map_some] at hword
  rw [eq_comm, Option.map_eq_some_iff] at hword
  obtain ⟨word, hrom, hword⟩ := hword
  exact ⟨word, by simpa using hrom, hword.symm⟩

theorem codeSize_lt {i : Instruction Computation}
    (h : image.statements = before ++ .instruction i :: rest) :
    codeSize before < MemoryMap.romSize := by
  have hle := image.size_le
  rw [h] at hle
  simp only [codeSize_append, codeSize_instruction] at hle
  omega

theorem address?_of_mem {symbol : String}
    (h : .instruction (.address (.symbol symbol)) ∈ image.statements) :
    address? image.statements symbol = some (image.address symbol) := by
  obtain ⟨before, rest, hstatements⟩ := List.append_of_mem h
  obtain ⟨word, -, hword⟩ := getElem?_rom hstatements
  have hfound : address? image.statements symbol = some word :=
    (Option.filter_eq_some_iff.1 hword).1
  rw [address, hfound, Option.getD_some]

theorem getElem?_rom_symbol {symbol : String}
    (h : image.statements = before ++ .instruction (.address (.symbol symbol)) :: rest) :
    image.rom[codeSize before]? = some (image.address symbol) := by
  obtain ⟨word, hrom, hword⟩ := getElem?_rom h
  have hfound : address? image.statements symbol = some word :=
    (Option.filter_eq_some_iff.1 hword).1
  rw [hrom, address, hfound, Option.getD_some]

/-- A word is the address of the place from which on the statements are `rest`. -/
def Locates (image : Image) (address : Word) (rest : List (Statement Computation)) : Prop :=
  ∃ before, image.statements = before ++ rest ∧ address = .ofNat (codeSize before)

theorem Locates.label {name : String} {address : Word}
    (h : image.Locates address (.label name :: rest)) : image.Locates address rest := by
  obtain ⟨before, hstatements, rfl⟩ := h
  exact ⟨before ++ [.label name], by simp [hstatements], by simp⟩

theorem Locates.instruction {i : Instruction Computation} {address : Word}
    (h : image.Locates address (.instruction i :: rest)) : image.Locates (address + 1) rest := by
  obtain ⟨before, hstatements, rfl⟩ := h
  refine ⟨before ++ [.instruction i], by simp [hstatements], ?_⟩
  simp [UInt16.ofNat_add]

theorem locates_declaration {name : String} (h : .label name :: rest <:+ image.statements) :
    image.Locates (image.address name) (.label name :: rest) := by
  obtain ⟨before, h⟩ := h
  have hnodup := image.labels_nodup
  rw [← h, labels_append, labels_label, List.nodup_append] at hnodup
  have hnew : name ∉ labels before := fun hmem => hnodup.2.2 name hmem name List.mem_cons_self rfl
  have hfree : Symbol.predefined? name = none := image.labels_free name (by simp [← h])
  refine ⟨before, h.symm, ?_⟩
  rw [address, address?, hfree, ← h, labelAddress?_append_label hnew]
  simp

theorem locates_label {name : String} (h : .label name :: rest <:+ image.statements) :
    image.Locates (image.address name) rest :=
  (locates_declaration h).label

theorem address_of_predefined {symbol : String} {address : Word}
    (h : Symbol.predefined? symbol = some address) : image.address symbol = address := by
  simp [Image.address, address?, h]

/-- The computer executes an image and is at the place from which on the statements are `rest`. -/
structure At (image : Image) (rest : List (Statement Computation)) (cpu : Cpu) : Prop where
  rom : cpu.rom = image.rom
  pc : image.Locates cpu.pc rest

theorem At.step_address {operand : Operand} {cpu : Cpu}
    (h : image.At (.instruction (.address operand) :: rest) cpu) :
    ∃ next, cpu.step = (.ok .running, next) ∧ image.At rest next ∧
      next.core = { cpu.core with a := image.value operand } := by
  obtain ⟨before, hstatements, hpc⟩ := h.pc
  obtain ⟨word, hrom, hword⟩ := getElem?_rom hstatements
  have hlt := codeSize_lt hstatements
  have hfetch : cpu.rom[cpu.pc.toNat]? = some word := by
    rw [h.rom, hpc, UInt16.toNat_ofNat_of_lt' (Nat.lt_trans hlt (by decide)), hrom]
  obtain ⟨rfl, hle⟩ := value_of_word? hword
  exact ⟨_, Cpu.step_load hfetch hle, ⟨h.rom, h.pc.instruction⟩, rfl⟩

theorem At.step_compute {c : Computation} {cpu : Cpu}
    (h : image.At (.instruction (.compute c) :: rest) cpu)
    (hcell : c.usesMemory = true → Memory.contains cpu.a = true) :
    cpu.step = (.ok (if cpu.haltsOn c then .halted else .running),
      cpu.advance (cpu.core.store c.dest (cpu.core.out c.comp))
        (if c.jumps (cpu.core.out c.comp) then cpu.a else cpu.pc + 1)) := by
  obtain ⟨before, hstatements, hpc⟩ := h.pc
  obtain ⟨word, hrom, hword⟩ := getElem?_rom hstatements
  obtain rfl : c.word = word := Option.some.inj hword
  have hlt := codeSize_lt hstatements
  apply Cpu.step_compute _ hcell
  rw [h.rom, hpc, UInt16.toNat_ofNat_of_lt' (Nat.lt_trans hlt (by decide)), hrom]

/-- From one place and core, `n` steps with allowed statuses lead to another place and core. -/
def Leads (image : Image) (allowed : Status → Prop) (n : Nat) (rest : List (Statement Computation))
    (core : Core) (rest' : List (Statement Computation)) (core' : Core) : Prop :=
  ∀ cpu, image.At rest cpu → cpu.core = core →
    ∃ final, Cpu.Path allowed n cpu final ∧ image.At rest' final ∧ final.core = core'

variable {allowed : Status → Prop} {m n : Nat} {core core' core'' : Core}
  {rest'' : List (Statement Computation)}

theorem Leads.refl (rest : List (Statement Computation)) (core : Core) :
    image.Leads allowed 0 rest core rest core :=
  fun cpu hat hcore => ⟨cpu, .refl cpu, hat, hcore⟩

theorem Leads.trans (h : image.Leads allowed m rest core rest' core')
    (h' : image.Leads allowed n rest' core' rest'' core'') :
    image.Leads allowed (m + n) rest core rest'' core'' := by
  intro cpu hat hcore
  obtain ⟨mid, path, hat, hcore⟩ := h cpu hat hcore
  obtain ⟨final, path', hat, hcore⟩ := h' mid hat hcore
  exact ⟨final, path.trans path', hat, hcore⟩

theorem leads_label (name : String) (rest : List (Statement Computation)) (core : Core) :
    image.Leads allowed 0 (.label name :: rest) core rest core :=
  fun cpu hat hcore => ⟨cpu, .refl cpu, ⟨hat.rom, hat.pc.label⟩, hcore⟩

section Step

variable (hrun : allowed .running)
include hrun

theorem leads_address (operand : Operand) (rest : List (Statement Computation)) (core : Core) :
    image.Leads allowed 1 (.instruction (.address operand) :: rest) core rest
      { core with a := image.value operand } := by
  intro cpu hat hcore
  obtain ⟨next, hstep, hat, hnext⟩ := hat.step_address
  exact ⟨next, .single hstep hrun, hat, hcore ▸ hnext⟩

theorem leads_compute {c : Computation}
    (hcell : c.usesMemory = true → Memory.contains core.a = true)
    (hjumps : c.jumps (core.out c.comp) = false) (rest : List (Statement Computation)) :
    image.Leads allowed 1 (.instruction (.compute c) :: rest) core rest
      (core.store c.dest (core.out c.comp)) := by
  rintro cpu hat rfl
  have hstep := hat.step_compute hcell
  have hhalts : cpu.haltsOn c = false := by
    simp [Cpu.haltsOn, hjumps]
  rw [hhalts, hjumps] at hstep
  exact ⟨_, .single hstep hrun, ⟨hat.rom, hat.pc.instruction⟩, rfl⟩

theorem leads_branch (core : Core) (comp : Comp) {condition : Jump}
    (hcomp : comp.readsMemory = false)
    (hcondition : condition ≠ .always) (hholds : condition.Holds (core.out comp))
    (hlocates : image.Locates core.a rest') (rest : List (Statement Computation)) :
    image.Leads allowed 1 (.instruction (.compute (.branch comp condition)) :: rest) core rest'
      core := by
  rintro cpu hat rfl
  have hstep := hat.step_compute (by simp [Computation.branch, Computation.usesMemory, hcomp,
    Dest.nowhere])
  have hjumps : (Computation.branch comp condition).jumps
      (cpu.core.out (Computation.branch comp condition).comp) = true :=
    decide_eq_true hholds
  have hhalts : cpu.haltsOn (.branch comp condition) = false := by
    simp [Cpu.haltsOn, Computation.branch, Computation.isPlainJump, hcondition]
  rw [hhalts, hjumps] at hstep
  exact ⟨_, .single hstep hrun, ⟨hat.rom, hlocates⟩, rfl⟩

theorem leads_fall (core : Core) (comp : Comp) {condition : Jump} (hcomp : comp.readsMemory = false)
    (hholds : ¬condition.Holds (core.out comp)) (rest : List (Statement Computation)) :
    image.Leads allowed 1 (.instruction (.compute (.branch comp condition)) :: rest) core rest
      core := by
  have hcell : (Computation.branch comp condition).usesMemory = true →
      Memory.contains core.a = true := by
    simp [Computation.branch, Computation.usesMemory, hcomp, Dest.nowhere]
  exact leads_compute hrun hcell (decide_eq_false hholds) rest

/-- A jump ahead does not close a loop. -/
theorem leads_jump_ahead (hlocates : image.Locates core.a rest')
    (hlength : rest'.length ≤ rest.length) :
    image.Leads allowed 1 (.instruction (.compute (.branch .zero .always)) :: rest) core rest'
      core := by
  rintro cpu hat rfl
  have hstep := hat.step_compute fun h => absurd h (by decide)
  have hahead : Cpu.closesLoop cpu.rom cpu.pc cpu.a = false := by
    obtain ⟨before, hstatements, hpc⟩ := hat.pc
    obtain ⟨before', hstatements', htarget⟩ := hlocates
    have hle : codeSize before + 1 ≤ codeSize before' := by
      have hprefix : before ++ [.instruction (.compute (.branch .zero .always))] <+: before' := by
        have hbefore : before ++ [.instruction (.compute (.branch .zero .always))] <+:
            image.statements := ⟨rest, by simp [hstatements]⟩
        apply List.prefix_of_prefix_length_le hbefore ⟨rest', hstatements'.symm⟩
        have hlengths := congrArg List.length (hstatements.symm.trans hstatements')
        simp only [List.length_append, List.length_cons, List.length_nil] at hlengths ⊢
        omega
      obtain ⟨between, rfl⟩ := hprefix
      simp
    have hsize : codeSize before' ≤ MemoryMap.romSize := by
      have hle := image.size_le
      rw [hstatements', codeSize_append] at hle
      omega
    have hlt := codeSize_lt hstatements
    rw [show MemoryMap.romSize = 32768 from rfl] at hsize hlt
    have hne : cpu.a ≠ cpu.pc - 1 := by
      rw [Cpu.a_core] at htarget
      rw [htarget, hpc, Ne, ← UInt16.toNat_inj, UInt16.toNat_sub,
        UInt16.toNat_ofNat_of_lt' (Nat.lt_of_le_of_lt hsize (by decide)),
        UInt16.toNat_ofNat_of_lt' (Nat.lt_trans hlt (by decide)), UInt16.toNat_one]
      omega
    simp [Cpu.closesLoop, hne]
  have hhalts : cpu.haltsOn (.branch .zero .always) = false := by
    simp [Cpu.haltsOn, hahead]
  rw [hhalts] at hstep
  exact ⟨_, .single hstep hrun, ⟨hat.rom, hlocates⟩, rfl⟩

end Step

/-- A jump leads to the place that A locates. It may be what closes an endless loop. -/
theorem leads_jump (hall : ∀ status, allowed status) (hlocates : image.Locates core.a rest')
    (rest : List (Statement Computation)) :
    image.Leads allowed 1 (.instruction (.compute (.branch .zero .always)) :: rest) core rest'
      core := by
  rintro cpu hat rfl
  have hstep := hat.step_compute fun h => absurd h (by decide)
  exact ⟨_, .single hstep (hall _), ⟨hat.rom, hlocates⟩, rfl⟩

/-- A jump right behind the load of its own label closes an endless loop, and the computer halts. -/
theorem At.step_loop {name : String} {cpu : Cpu}
    (h : image.At (.label name :: .instruction (.address (.symbol name)) ::
      .instruction (.compute (.branch .zero .always)) :: rest) cpu) :
    ∃ mid final, cpu.step = (.ok .running, mid) ∧ mid.step = (.ok .halted, final) ∧
      final.ram = cpu.ram := by
  obtain ⟨before, hstatements, hpc⟩ := h.pc
  have hloads : image.statements = before ++ [.label name] ++
      .instruction (.address (.symbol name)) ::
        .instruction (.compute (.branch .zero .always)) :: rest := by
    simp [hstatements]
  -- the label stands for the address of the load
  have haddress : image.address name = cpu.pc := by
    obtain ⟨before', hstatements', haddress⟩ := locates_declaration ⟨before, hstatements.symm⟩
    rw [haddress, List.append_cancel_right (hstatements'.symm.trans hstatements), hpc]
  have hload : image.At (.instruction (.address (.symbol name)) ::
      .instruction (.compute (.branch .zero .always)) :: rest) cpu := ⟨h.rom, h.pc.label⟩
  obtain ⟨mid, hstep, hat, hcore⟩ := hload.step_address
  have ha : mid.a = cpu.pc := haddress ▸ congrArg Core.a hcore
  have hstep' := hat.step_compute fun h => absurd h (by decide)
  have hcloses : Cpu.closesLoop mid.rom mid.pc mid.a = true := by
    have hrom := getElem?_rom_symbol hloads
    have hlt := codeSize_lt hloads
    obtain ⟨before', hstatements', hpc'⟩ := hat.pc
    have hbefore : before' = before ++ [.label name, .instruction (.address (.symbol name))] := by
      apply List.append_cancel_right (hstatements'.symm.trans _)
      simp [hstatements]
    have hnext : mid.pc = cpu.pc + 1 := by
      rw [hpc', hpc, hbefore]
      simp [UInt16.ofNat_add]
    have hnat : cpu.pc.toNat = codeSize (before ++ [.label name]) := by
      rw [hpc, UInt16.toNat_ofNat_of_lt']
      · simp
      · exact Nat.lt_trans (by simpa using hlt) (by decide)
    have hpos : 0 < mid.pc := by
      rw [hnext, UInt16.lt_iff_toNat_lt, UInt16.toNat_add, hnat]
      have hlt : codeSize (before ++ [.label name]) < 32768 := hlt
      simp only [UInt16.toNat_zero, UInt16.toNat_one]
      omega
    rw [Cpu.closesLoop, ha, hat.rom, hnat, hrom, haddress, hnext, UInt16.add_sub_cancel,
      ← hnext, decide_eq_true hpos, beq_self_eq_true, beq_self_eq_true]
    rfl
  have hhalts : mid.haltsOn (.branch .zero .always) = true := by
    rw [Cpu.haltsOn, hcloses, Bool.and_true]
    rfl
  rw [hhalts, if_pos rfl] at hstep'
  refine ⟨mid, _, hstep, hstep', ?_⟩
  have hram := congrArg Core.ram hcore
  exact hram

/-- What a statement that does not jump does to a core, if the memory word that it needs is a
cell. -/
def effect? (image : Image) (core : Core) : Statement Computation → Option Core
  | .label _ => some core
  | .instruction (.address operand) => some { core with a := image.value operand }
  | .instruction (.compute c) =>
    if c.jump = none ∧ (c.usesMemory = true → Memory.contains core.a = true) then
      some (core.store c.dest (core.out c.comp))
    else none

/-- What statements that do not jump do to a core. -/
def exec? (image : Image) (block : List (Statement Computation)) (core : Core) : Option Core :=
  block.foldlM image.effect? core

@[simp] theorem exec?_nil : image.exec? [] core = some core := rfl

@[simp] theorem exec?_label (name : String) :
    image.exec? (.label name :: rest) core = image.exec? rest core := rfl

@[simp] theorem exec?_address (operand : Operand) :
    image.exec? (.instruction (.address operand) :: rest) core =
      image.exec? rest { core with a := image.value operand } := rfl

theorem exec?_assign {dest : Dest} {comp : Comp}
    (h : (comp.readsMemory || dest.m) = true → Memory.contains core.a = true) :
    image.exec? (.instruction (.compute (.assign dest comp)) :: rest) core =
      image.exec? rest (core.store dest (core.out comp)) := by
  have heffect : image.effect? core (.instruction (.compute (.assign dest comp))) =
      some (core.store dest (core.out comp)) := if_pos ⟨rfl, h⟩
  rw [exec?, List.foldlM_cons, heffect]
  rfl

theorem exec?_append (block : List (Statement Computation)) :
    image.exec? (block ++ rest) core = (image.exec? block core).bind (image.exec? rest) :=
  List.foldlM_append

theorem leads_of_exec? (hrun : allowed .running) {block : List (Statement Computation)}
    (h : image.exec? block core = some core') (rest : List (Statement Computation)) :
    image.Leads allowed (codeSize block) (block ++ rest) core rest core' := by
  induction block generalizing core with
  | nil =>
      obtain rfl := Option.some.inj h
      exact .refl rest core
  | cons s block ih =>
      rw [exec?, List.foldlM_cons, Option.bind_eq_bind, Option.bind_eq_some_iff] at h
      obtain ⟨mid, heffect, h⟩ := h
      rw [List.cons_append]
      cases s with
      | label name =>
          obtain rfl := Option.some.inj heffect
          have hlabel : image.Leads allowed 0 (.label name :: (block ++ rest)) core
              (block ++ rest) core := leads_label name _ core
          simpa using hlabel.trans (ih h)
      | instruction i =>
          rw [codeSize_instruction, Nat.add_comm]
          cases i with
          | address operand =>
              obtain rfl := Option.some.inj heffect
              exact (leads_address hrun operand _ core).trans (ih h)
          | compute c =>
              simp only [effect?, Option.ite_none_right_eq_some] at heffect
              obtain ⟨⟨hjump, hcell⟩, hcore⟩ := heffect
              obtain rfl := Option.some.inj hcore
              have hjumps : c.jumps (core.out c.comp) = false := by
                simp [Computation.jumps, hjump]
              exact (leads_compute hrun hcell hjumps _).trans (ih h)

theorem exists_append_of_le_codeSize {block : List (Statement Computation)} {n : Nat}
    (h : n ≤ codeSize block) : ∃ head tail, block = head ++ tail ∧ codeSize head = n := by
  induction block generalizing n with
  | nil => exact ⟨[], [], rfl, (Nat.le_zero.1 h).symm⟩
  | cons s block ih =>
      cases n with
      | zero => exact ⟨[], s :: block, rfl, rfl⟩
      | succ n =>
          cases s with
          | label name =>
              obtain ⟨head, tail, rfl, hsize⟩ := ih h
              exact ⟨.label name :: head, tail, rfl, hsize⟩
          | instruction i =>
              obtain ⟨head, tail, rfl, hsize⟩ := ih (Nat.le_of_succ_le_succ h)
              exact ⟨.instruction i :: head, tail, rfl, congrArg (· + 1) hsize⟩

/-- While statements are executed that do not jump, the program counter counts the steps. -/
theorem pc_of_exec? {block : List (Statement Computation)} {cpu mid : Cpu}
    (hstatements : image.statements = before ++ (block ++ rest))
    (hat : image.At (block ++ rest) cpu) (h : image.exec? block cpu.core = some core)
    (hn : n ≤ codeSize block) (path : Cpu.Path allowed n cpu mid) :
    mid.pc = .ofNat (codeSize before + n) := by
  obtain ⟨head, tail, rfl, rfl⟩ := exists_append_of_le_codeSize hn
  rw [exec?_append, Option.bind_eq_some_iff] at h
  obtain ⟨core', hhead, -⟩ := h
  rw [List.append_assoc] at hat hstatements
  obtain ⟨other, path', hat', -⟩ := leads_of_exec? Status.isRunning_running hhead _ cpu hat rfl
  obtain rfl := path.unique path'
  obtain ⟨before', hstatements', hpc⟩ := hat'.pc
  have hbefore : before' = before ++ head := by
    apply List.append_cancel_right (hstatements'.symm.trans _)
    rw [hstatements, List.append_assoc]
  rw [hpc, hbefore, codeSize_append]

end Image

end Assembly

end HackToolchain
