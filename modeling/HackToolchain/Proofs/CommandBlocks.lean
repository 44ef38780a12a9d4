import HackToolchain.Proofs.Lowering.Passages
import HackToolchain.Proofs.Toolchain
import HackToolchain.Proofs.Vm.Comparison

/-!
# What the blocks of commands do

Wherever the block of an operator, a push, a pop or a function lies in assembled code, and whatever
the registers and the cells hold when the computer comes to its start, the computer goes to the end
of the block, and the cells that change are known: every one, scratch cells included.
-/

namespace HackToolchain

open Assembly Lowering Machine Vm

/-- The static cells of a context by the table of a text. -/
def Assembly.SymbolTable.staticCell (table : SymbolTable) (context : Context) (index : Word) :
    Word :=
  table.address (context.staticSymbol index)

/-- Without a bootstrap a program starts with its first command. -/
theorem Lowering.Program.pc_load {program : Program} (h : program.bootstrap = false)
    (code : MachineCode) (ram : Memory) :
    ({ Cpu.load code with ram := ram } : Cpu).pc = .ofNat (program.start 0) := by
  rw [program.start_zero h]
  rfl

variable {config : Config} {units : List SourceUnit} {listing : Listing} {code : MachineCode}

/-- The block of an operator replaces its operands by its result. Nothing else changes but `SP`. -/
theorem passes_operator (hlower : lower config units = .ok listing)
    (hcode : assemble listing.toText = .ok code) {k : Nat} {context : Context}
    {operator : Operator} {cpu : Cpu}
    (hplaced : (Program.ofUnits config units).commands[k]? = some ⟨context, .operate operator⟩)
    (hrom : cpu.rom = code.words) (hpc : cpu.pc = .ofNat ((Program.ofUnits config units).start k))
    (hge : (if operator.isUnary then 17 else 18) ≤ (cpu.ram.pointer .sp).toNat)
    (hle : (cpu.ram.pointer .sp).toNat ≤ 32768) :
    ∃ n final, (Program.ofUnits config units).Passes k n cpu final ∧
      ((final.ram.pointer .sp).toNat : Int) =
        (cpu.ram.pointer .sp).toNat + operator.stackEffect ∧
      final.ram.top = operator.value (cpu.ram.read (cpu.ram.pointer .sp - 2))
        (cpu.ram.read (cpu.ram.pointer .sp - 1)) ∧
      (∀ address, address ≠ 0 → address ≠ final.ram.pointer .sp - 1 →
        final.ram.read address = cpu.ram.read address) ∧
      (operator.isComparison = true → final.ram.top = 0xFFFF ∨ final.ram.top = 0) ∧
      operator.Tells (cpu.ram.read (cpu.ram.pointer .sp - 2))
        (cpu.ram.read (cpu.ram.pointer .sp - 1)) final.ram.top := by
  obtain ⟨-, image, himage, hwords, -⟩ := exists_image_of_units hlower hcode
  have htop : cpu.ram.hasTop := by
    rw [Memory.hasTop_iff]
    split at hge <;> omega
  have hsecond : operator.isUnary = false → cpu.ram.drop.hasTop := by
    intro hunary
    rw [if_neg (by simp [hunary])] at hge
    exact Memory.hasTop_drop_of_toNat hge hle
  obtain ⟨n, -, final, hpasses, hram⟩ := Program.exists_passes_operate himage
    (hrom.trans hwords.symm) hpc hplaced htop hsecond
  have hvalue : final.ram.top = operator.value (cpu.ram.read (cpu.ram.pointer .sp - 2))
      (cpu.ram.read (cpu.ram.pointer .sp - 1)) := by
    rw [hram]
    exact Memory.top_operate htop hsecond
  refine ⟨n, final, hpasses, ?_, hvalue, fun address hsp hne => ?_, fun hcomparison => ?_, ?_⟩
  · rw [hram, Memory.sp_operate htop hsecond, Operator.stackEffect]
    split
    · simp
    · rw [UInt16.toNat_sub, UInt16.toNat_one]
      split at hge <;> omega
  · rw [hram] at hne ⊢
    exact Memory.read_operate_of_ne htop hsecond hsp hne
  · rw [hvalue]
    exact Operator.value_of_isComparison hcomparison _ _
  · rw [hvalue]
    exact operator.tells_value _ _

/-- The difference of -32768 and 1 is no word, and the former is found greater. -/
theorem passes_operator_gt :
    ∃ listing code, lower {} [⟨"Main", "gt"⟩] = .ok listing ∧
      assemble listing.toText = .ok code ∧
      ∃ n final, Cpu.Path Status.IsRunning n { Cpu.load code with
          ram := ((Memory.zero.write 0 18).write 16 0x8000).write 17 1 } final ∧
        final.ram.pointer .sp = 17 ∧ final.ram.read 16 = 0xFFFF := by
  obtain ⟨listing, code, hlower, hcode⟩ := exists_code_of_fits {} [⟨"Main", "gt"⟩] (by decide)
    (by decide +kernel) (by decide +kernel)
  have hcommands : (Program.ofUnits {} [⟨"Main", "gt"⟩]).commands =
      [⟨⟨"Main", none, 0⟩, .operate .gt⟩] := by decide +kernel
  have hplaced : (Program.ofUnits {} [⟨"Main", "gt"⟩]).commands[0]? =
      some ⟨⟨"Main", none, 0⟩, .operate .gt⟩ := by rw [hcommands]; rfl
  have hsp : (((Memory.zero.write 0 18).write 16 0x8000).write 17 1).pointer .sp = 18 := by
    decide +kernel
  have hx : (((Memory.zero.write 0 18).write 16 0x8000).write 17 1).read 16 = 0x8000 := by
    decide +kernel
  have hy : (((Memory.zero.write 0 18).write 16 0x8000).write 17 1).read 17 = 1 := by
    decide +kernel
  generalize ((Memory.zero.write 0 18).write 16 0x8000).write 17 1 = ram at hsp hx hy ⊢
  let cpu : Cpu := { Cpu.load code with ram := ram }
  have hrom : cpu.rom = code.words := rfl
  have hpc : cpu.pc = .ofNat ((Program.ofUnits {} [⟨"Main", "gt"⟩]).start 0) :=
    Program.pc_load rfl code ram
  have hnat : (cpu.ram.pointer .sp).toNat = 18 := congrArg UInt16.toNat hsp
  obtain ⟨n, final, hpasses, hheight, htop, -⟩ := passes_operator hlower hcode hplaced hrom hpc
    (Nat.le_of_eq hnat.symm) (by rw [hnat]; decide)
  have hsp' : final.ram.pointer .sp = 17 := by
    rw [hnat] at hheight
    exact UInt16.toNat_inj.1 (Int.ofNat.inj hheight)
  have hvalue : final.ram.top = Operator.value 0x8000 1 .gt := by
    rw [htop, show cpu.ram.pointer .sp = 18 from hsp]
    exact congrArg₂ (Operator.value · · .gt) hx hy
  rw [Memory.top, hsp'] at hvalue
  exact ⟨listing, code, hlower, hcode, n, final, hpasses.path, hsp', hvalue⟩

/-- The block of a push puts the word of its cell on the stack, and that of a pop moves the top of
the stack to its cell. Nothing else changes but `SP`, and the first scratch cell where a pop reaches
its cell through a pointer: the address of the cell is left there. -/
theorem passes_cell (hlower : lower config units = .ok listing)
    (hcode : assemble listing.toText = .ok code) :
    ∃ table, symbols listing.toText = .ok table ∧
      (∀ k context segment index cpu,
        (Program.ofUnits config units).commands[k]? = some ⟨context, .push segment index⟩ →
        cpu.rom = code.words → cpu.pc = .ofNat ((Program.ofUnits config units).start k) →
        16 ≤ (cpu.ram.pointer .sp).toNat → (cpu.ram.pointer .sp).toNat ≤ 32767 →
        (∀ cell ∈ segment.cell? (table.staticCell context) cpu.ram index, cell.toNat < 32768) →
        ∃ n final, (Program.ofUnits config units).Passes k n cpu final ∧
          final.ram.pointer .sp = cpu.ram.pointer .sp + 1 ∧
          final.ram.read (cpu.ram.pointer .sp) =
            segment.value (table.staticCell context) cpu.ram index ∧
          ∀ address, address ≠ 0 → address ≠ cpu.ram.pointer .sp →
            final.ram.read address = cpu.ram.read address) ∧
      ∀ k context segment index cpu cell,
        (Program.ofUnits config units).commands[k]? = some ⟨context, .pop segment index⟩ →
        cpu.rom = code.words → cpu.pc = .ofNat ((Program.ofUnits config units).start k) →
        17 ≤ (cpu.ram.pointer .sp).toNat → (cpu.ram.pointer .sp).toNat ≤ 32768 →
        segment.cell? (table.staticCell context) cpu.ram index = some cell →
        cell.toNat < 32768 → cell ≠ 0 → (segment.isIndirect = true → cell ≠ 13) →
        ∃ n final, (Program.ofUnits config units).Passes k n cpu final ∧
          final.ram.pointer .sp = cpu.ram.pointer .sp - 1 ∧
          final.ram.read cell = cpu.ram.read (cpu.ram.pointer .sp - 1) ∧
          (segment.isIndirect = true → final.ram.read 13 = cell) ∧
          ∀ address, address ≠ 0 → address ≠ cell → (segment.isIndirect = true → address ≠ 13) →
            final.ram.read address = cpu.ram.read address := by
  obtain ⟨-, image, himage, hwords, table, htable, haddress⟩ :=
    exists_image_of_units hlower hcode
  have hstatic (context : Context) : table.staticCell context = staticCell image context := by
    funext index
    rw [SymbolTable.staticCell, haddress, staticCell]
  refine ⟨table, htable, ?_, ?_⟩
  · intro k context segment index cpu hplaced hrom hpc hge hle hcell
    rw [hstatic] at hcell ⊢
    have hroom : Memory.isStackCell (cpu.ram.pointer .sp) = true :=
      (Memory.isStackCell_iff _).2 ⟨hge, Nat.lt_succ_of_le hle⟩
    obtain ⟨n, final, hpasses, hram⟩ := Program.exists_passes_push himage
      (hrom.trans hwords.symm) hpc hplaced hroom fun address h =>
        (Memory.contains_iff address).2 (hcell address h)
    refine ⟨n, final, hpasses, ?_⟩
    rw [hram]
    exact ⟨Memory.pointer_sp_push _ _, Memory.read_push_self hroom _,
      fun address hsp hne => Memory.read_push_of_ne hsp hne _⟩
  · intro k context segment index cpu cell hplaced hrom hpc hge hle hcell hlt hzero hscratch
    rw [hstatic] at hcell
    have htop : cpu.ram.hasTop := (Memory.hasTop_iff _).2 ⟨hge, hle⟩
    have hcontains : Memory.contains cell = true := (Memory.contains_iff cell).2 hlt
    obtain ⟨n, final, hpasses, hram⟩ := Program.exists_passes_pop himage
      (hrom.trans hwords.symm) hpc hplaced htop fun address h =>
        Option.some.inj (hcell.symm.trans h) ▸ hcontains
    have hagrees := Memory.agrees_park cpu.ram segment index
    refine ⟨n, final, hpasses, ?_⟩
    rw [hram, hcell]
    refine ⟨?_, ?_, fun hindirect => ?_, fun address hsp hne hother => ?_⟩
    · rw [Memory.sp_popInto hzero, hagrees.pointer]
    · rw [Memory.read_popInto_self hcontains, hagrees.top htop, Memory.top]
    · rw [Memory.read_popInto_of_ne (by decide) (hscratch hindirect).symm]
      exact Memory.read_park_of_isIndirect hindirect hcell
    · rw [Memory.read_popInto_of_ne hsp hne, Memory.read_park_of_ne hother]

/-- Seven is pushed and popped into the cell 2 behind `LCL`. -/
theorem passes_cell_local :
    ∃ listing code, lower {} [⟨"Main", "push constant 7\npop local 2"⟩] = .ok listing ∧
      assemble listing.toText = .ok code ∧
      ∃ n final, Cpu.Path Status.IsRunning n
          { Cpu.load code with ram := (Memory.zero.write 0 256).write 1 300 } final ∧
        final.ram.pointer .sp = 256 ∧ final.ram.read 302 = 7 ∧ final.ram.read 13 = 302 := by
  obtain ⟨listing, code, hlower, hcode⟩ := exists_code_of_fits {}
    [⟨"Main", "push constant 7\npop local 2"⟩] (by decide) (by decide +kernel) (by decide +kernel)
  have hcommands : (Program.ofUnits {} [⟨"Main", "push constant 7\npop local 2"⟩]).commands =
      [⟨⟨"Main", none, 0⟩, .push .constant 7⟩, ⟨⟨"Main", none, 0⟩, .pop .locals 2⟩] := by
    decide +kernel
  generalize [SourceUnit.mk "Main" "push constant 7\npop local 2"] = units
    at hlower hcommands ⊢
  have hfirst : (Program.ofUnits {} units).commands[0]? =
      some ⟨⟨"Main", none, 0⟩, .push .constant 7⟩ := by rw [hcommands]; rfl
  have hsecond : (Program.ofUnits {} units).commands[1]? =
      some ⟨⟨"Main", none, 0⟩, .pop .locals 2⟩ := by rw [hcommands]; rfl
  have hsp : ((Memory.zero.write 0 256).write 1 300).pointer .sp = 256 := by decide +kernel
  have hlcl : ((Memory.zero.write 0 256).write 1 300).pointer .lcl = 300 := by decide +kernel
  generalize (Memory.zero.write 0 256).write 1 300 = ram at hsp hlcl ⊢
  let cpu : Cpu := { Cpu.load code with ram := ram }
  have hpc : cpu.pc = .ofNat ((Program.ofUnits {} units).start 0) := Program.pc_load rfl code ram
  have hsp : cpu.ram.pointer .sp = 256 := hsp
  have hlcl : cpu.ram.read 1 = 300 := hlcl
  obtain ⟨table, -, hpush, hpop⟩ := passes_cell hlower hcode
  obtain ⟨n, mid, hpasses, hsp', htop, hother⟩ := hpush 0 _ _ _ cpu hfirst rfl hpc
    (by rw [hsp]; decide) (by rw [hsp]; decide)
    (fun cell hcell => by simp [Segment.cell?, Segment.base] at hcell)
  rw [hsp] at hsp' htop hother
  have hcell : Segment.locals.cell? (table.staticCell ⟨"Main", none, 0⟩) mid.ram 2 = some 302 := by
    have hlcl' : mid.ram.pointer .lcl = 300 := (hother 1 (by decide) (by decide)).trans hlcl
    simp [Segment.cell?, Segment.base, hlcl']
  obtain ⟨m, final, hpasses', hsp'', hmoved, hparked, -⟩ := hpop 1 _ _ _ mid 302 hsecond
    hpasses.path.rom_eq hpasses.pc (by rw [hsp']; decide) (by rw [hsp']; decide) hcell (by decide)
    (by decide) (fun _ => by decide)
  rw [hsp'] at hsp'' hmoved
  exact ⟨listing, code, hlower, hcode, n + m, final, hpasses.path.trans hpasses'.path, hsp'',
    hmoved.trans htop, hparked rfl⟩

/-- The block of a function pushes a zero for each of its locals, in a number of cycles that only
depends on how many there are. Nothing else changes but `SP`, and the first scratch cell if there
are locals: it counts them down to zero. -/
theorem passes_function (hlower : lower config units = .ok listing)
    (hcode : assemble listing.toText = .ok code) {k : Nat} {context : Context} {name : String}
    {locals : Word} {cpu : Cpu}
    (hplaced : (Program.ofUnits config units).commands[k]? =
      some ⟨context, .function name locals⟩)
    (hrom : cpu.rom = code.words) (hpc : cpu.pc = .ofNat ((Program.ofUnits config units).start k))
    (hge : 16 ≤ (cpu.ram.pointer .sp).toNat)
    (hle : (cpu.ram.pointer .sp).toNat + locals.toNat ≤ 32768) :
    ∃ final, (Program.ofUnits config units).Passes k
        (if locals = 0 then 4 else 6 + 9 * locals.toNat) cpu final ∧
      final.cycles = cpu.cycles + (if locals = 0 then 4 else 6 + 9 * locals.toNat) ∧
      (final.ram.pointer .sp).toNat = (cpu.ram.pointer .sp).toNat + locals.toNat ∧
      (∀ i < locals.toNat, final.ram.read (cpu.ram.pointer .sp + .ofNat i) = 0) ∧
      (locals ≠ 0 → final.ram.read 13 = 0) ∧
      (∀ address, address ≠ 0 → address ≠ 13 →
        (∀ i < locals.toNat, address ≠ cpu.ram.pointer .sp + .ofNat i) →
        final.ram.read address = cpu.ram.read address) ∧
      (locals = 0 → final.ram = cpu.ram) := by
  obtain ⟨hvalid, image, himage, hwords, -⟩ := exists_image_of_units hlower hcode
  have hlocals := (signature_of_defect? (hvalid _ (List.mem_of_getElem? hplaced)).defect).2
  have hroom := Memory.hasRoom_of_toNat hge hle
  obtain ⟨final, hpasses, hram⟩ := Program.exists_passes_function himage
    (hrom.trans hwords.symm) hpc hplaced hlocals hroom
  refine ⟨final, hpasses, hpasses.cycles_eq, ?_⟩
  rw [hram]
  refine ⟨?_, fun i hi => Memory.read_pushLocals hroom hi, Memory.read_scratch_pushLocals cpu.ram,
    fun address hsp hscratch hother => Memory.read_pushLocals_of_ne hsp (fun _ => hscratch) hother,
    fun hzero => if_pos hzero⟩
  rw [Memory.sp_pushLocals, UInt16.toNat_add]
  omega

/-- Two locals are pushed over what was left on the stack, in 24 cycles. -/
theorem passes_function_two :
    ∃ listing code, lower {} [⟨"Main", "function Main.f 2"⟩] = .ok listing ∧
      assemble listing.toText = .ok code ∧
      ∃ final, Cpu.Path Status.IsRunning 24
          { Cpu.load code with ram := (Memory.zero.write 0 256).write 256 5 } final ∧
        (final.ram.pointer .sp).toNat = 258 ∧ final.ram.read 256 = 0 ∧ final.ram.read 257 = 0 := by
  obtain ⟨listing, code, hlower, hcode⟩ := exists_code_of_fits {} [⟨"Main", "function Main.f 2"⟩]
    (by decide) (by decide +kernel) (by decide +kernel)
  have hcommands : (Program.ofUnits {} [⟨"Main", "function Main.f 2"⟩]).commands =
      [⟨⟨"Main", none, 0⟩, .function "Main.f" 2⟩] := by decide +kernel
  have hplaced : (Program.ofUnits {} [⟨"Main", "function Main.f 2"⟩]).commands[0]? =
      some ⟨⟨"Main", none, 0⟩, .function "Main.f" 2⟩ := by rw [hcommands]; rfl
  have hsp : ((Memory.zero.write 0 256).write 256 5).pointer .sp = 256 := by decide +kernel
  generalize (Memory.zero.write 0 256).write 256 5 = ram at hsp ⊢
  let cpu : Cpu := { Cpu.load code with ram := ram }
  have hpc : cpu.pc = .ofNat ((Program.ofUnits {} [⟨"Main", "function Main.f 2"⟩]).start 0) :=
    Program.pc_load rfl code ram
  have hsp : cpu.ram.pointer .sp = 256 := hsp
  obtain ⟨final, hpasses, -, hsp', hzeros, -⟩ := passes_function hlower hcode hplaced
    (show cpu.rom = code.words from rfl) hpc (by rw [hsp]; decide) (by rw [hsp]; decide)
  rw [hsp] at hsp' hzeros
  exact ⟨listing, code, hlower, hcode, final, hpasses.path, hsp', hzeros 0 (by decide),
    hzeros 1 (by decide)⟩

end HackToolchain
