import HackToolchain.Proofs.Assembly.Acceptance
import HackToolchain.Proofs.Lowering.Simulation

/-!
# From units to the computer

Units are lowered, the text of the listing is assembled, and the code is run. If all of this
succeeds then the code is an image of the placed commands, and the computer simulates the stack
machine on them: from any safe state, for any number of commands.
-/

namespace HackToolchain

open Assembly Lowering Machine

/-- The address of a symbol in a table, zero if there is none. -/
def Assembly.SymbolTable.address (table : SymbolTable) (symbol : String) : Word :=
  (table.find? symbol).getD 0

/-- Whether a name looks like the symbol of a static cell of some unit: its name, a point, and
digits. -/
def IsStaticName (units : List SourceUnit) (name : String) : Prop :=
  ∃ unit ∈ units, ∃ digits : List Char, digits ≠ [] ∧ (∀ c ∈ digits, c.isDigit = true) ∧
    name.toList = unit.name.toList ++ '.' :: digits

theorem exists_image_of_units {config : Config} {units : List SourceUnit} {listing : Listing}
    {code : MachineCode} (hlower : lower config units = .ok listing)
    (hcode : assemble listing.toText = .ok code) :
    (∀ placed ∈ (Program.ofUnits config units).commands, placed.IsValid) ∧
    ∃ image : Image, image.statements = (Program.ofUnits config units).statements ∧
      image.rom = code.words ∧
      ∃ table, symbols listing.toText = .ok table ∧ table.address = image.address := by
  obtain ⟨hentry, hunits, rfl⟩ := lower_eq_ok_iff.1 hlower
  have hvalid := Program.isValid_of_mem_ofUnits hentry hunits
  have hlines := Program.isWritable_of_mem_lines hvalid
  obtain ⟨image, hstatements, hrom⟩ := exists_image hlines hcode
  obtain ⟨table, htable⟩ := exists_symbols_of_assemble hcode
  refine ⟨hvalid, image, hstatements, hrom, table, htable, ?_⟩
  funext symbol
  rw [SymbolTable.address, find?_of_symbols hlines htable, Image.address, hstatements]

/-- Valid units are lowered and assembled if the statements of their program fit into the
machine. -/
theorem exists_code_of_fits (config : Config) (units : List SourceUnit)
    (hentry : ∀ command ∈ Program.entry config, command.defect? = none)
    (hunits : ∀ unit ∈ units, unit.IsValid) (h : Fits (Program.ofUnits config units).statements) :
    ∃ listing code, lower config units = .ok listing ∧ assemble listing.toText = .ok code := by
  have hvalid := Program.isValid_of_mem_ofUnits hentry hunits
  obtain ⟨code, hcode⟩ := h.exists_assemble (Program.isWritable_of_mem_lines hvalid)
  exact ⟨_, code, lower_eq_ok_iff.2 ⟨hentry, hunits, rfl⟩, hcode⟩

/-- The computer is at the start of a command and holds what a state of the stack machine says. -/
structure Matches (program : Program) (code : MachineCode) (state : State) (cpu : Cpu) : Prop where
  rom : cpu.rom = code.words
  pc : cpu.pc = .ofNat (program.start state.next)
  ram : cpu.ram.Agrees state.ram

theorem exists_unit_of_static {config : Config} {units : List SourceUnit} {placed : Placed}
    {index : Word} (h : placed ∈ (Program.ofUnits config units).commands)
    (hstatic : placed.static? = some index) :
    ∃ unit ∈ units, placed.context.unit = unit.name := by
  rcases Program.exists_unit_of_mem_ofUnits h with hcall | hunit
  · obtain ⟨context, command⟩ := placed
    obtain rfl : command = .call config.entry 0 := hcall
    simp [Placed.static?] at hstatic
  · exact hunit

theorem isNamed_of_static {placed : Placed} {index : Word} (hvalid : placed.IsValid)
    (hstatic : placed.static? = some index) : placed.context.IsNamed := by
  obtain ⟨context, command⟩ := placed
  rcases hvalid.named with ⟨name, args, hcall⟩ | hnamed
  · obtain rfl : command = .call name args := hcall
    simp [Placed.static?] at hstatic
  · exact hnamed

theorem isStaticName_staticSymbol {units : List SourceUnit} {context : Context}
    (h : ∃ unit ∈ units, context.unit = unit.name) (index : Word) :
    IsStaticName units (context.staticSymbol index) := by
  obtain ⟨unit, hunit, hname⟩ := h
  refine ⟨unit, hunit, (toString index.toNat).toList, ?_,
    fun c => Text.isDigit_of_mem_toString _, ?_⟩
  · rw [Nat.toString_eq_repr, Nat.toList_repr]
    exact Nat.toDigits_ne_nil
  · rw [Context.staticSymbol, hname, String.toList_append, String.toList_append, List.append_assoc]
    rfl

/-- In a program whose jumps have targets, a safe state that is not at the end has a next state. -/
theorem Lowering.Program.exists_step? {program : Program} (hclosed : program.IsClosed)
    (cells : String → Word) {state : State} (hsafe : program.Safe state)
    (hlt : state.next < program.commands.length) :
    ∃ next, program.step? cells state = some next := by
  have hplaced := List.getElem?_eq_getElem hlt
  generalize program.commands[state.next] = placed at hplaced
  have hmem := List.mem_of_getElem? hplaced
  have hdeclared (symbol : String) (hsymbol : symbol ∈ placed.target?) :
      ∃ k, program.declaration? symbol = some k :=
    Program.exists_declaration? (hclosed placed hmem symbol hsymbol)
  obtain ⟨-, hreturn⟩ := hsafe placed hplaced
  obtain ⟨context, command⟩ := placed
  simp only [Program.step?, hplaced]
  cases command with
  | goto name =>
      obtain ⟨k, hk⟩ := hdeclared _ rfl
      simp [hk]
  | ifGoto name =>
      obtain ⟨k, hk⟩ := hdeclared _ rfl
      by_cases hzero : state.ram.top = 0 <;> simp [hzero, hk]
  | call name args =>
      obtain ⟨k, hk⟩ := hdeclared _ rfl
      simp [hk]
  | ret =>
      obtain ⟨k, hk⟩ := Option.isSome_iff_exists.1 (hreturn rfl)
      simp [hk]
  | _ => exact ⟨_, rfl⟩

/-- The computer sets up the stack if the program has a bootstrap, and comes to the first
command. -/
theorem exists_path_to_start {program : Program} {image : Image} {code : MachineCode}
    (himage : image.statements = program.statements) (hrom : image.rom = code.words)
    (ram : Memory) :
    ∃ n cpu, Cpu.Path Status.IsRunning n { Cpu.load code with ram := ram } cpu ∧
      Matches program code
        ⟨0, if program.bootstrap then ram.setPointer .sp MemoryMap.stackBase else ram⟩ cpu := by
  have hat : image.At image.statements { Cpu.load code with ram := ram } :=
    ⟨hrom.symm, [], rfl, rfl⟩
  rw [himage, program.statements_eq 0] at hat
  have hbefore : image.exec? (program.before 0) ⟨0, 0, ram⟩ = some
      (if program.bootstrap then
        ⟨0, MemoryMap.stackBase, ram.setPointer .sp MemoryMap.stackBase⟩ else ⟨0, 0, ram⟩) := by
    rw [Program.before, Program.prologue]
    cases program.bootstrap with
    | false => rfl
    | true =>
        simp [bootstrapLines, Core.out, Core.source, Comp.value, Comp.readsMemory]
        rfl
  obtain ⟨cpu, path, hat', hcore⟩ :=
    Image.leads_of_exec? Status.isRunning_running hbefore (program.onward 0) _ hat rfl
  obtain ⟨hrom', hpc⟩ := (Program.at_onward_iff himage).1 hat'
  refine ⟨_, cpu, path, hrom'.trans hrom, hpc, ?_⟩
  rw [← Cpu.ram_core, hcore]
  cases program.bootstrap <;> exact .refl _

/-- If no function has a name that looks like the symbol of a static cell, then the static cells are
in the part of RAM that has no pointers in it. -/
theorem isStackCell_address_static {config : Config} {units : List SourceUnit} {listing : Listing}
    {code : MachineCode} (hlower : lower config units = .ok listing)
    (hcode : assemble listing.toText = .ok code)
    (hnames : ∀ placed ∈ (Program.ofUnits config units).commands, ∀ name locals,
      placed.command = .function name locals → ¬IsStaticName units name)
    {table : SymbolTable} (htable : symbols listing.toText = .ok table) :
    ∀ placed ∈ (Program.ofUnits config units).commands, ∀ index ∈ placed.static?,
      Memory.isStackCell (table.address (placed.context.staticSymbol index)) = true := by
  obtain ⟨hvalid, image, himage, -, table', htable', haddress⟩ :=
    exists_image_of_units hlower hcode
  obtain rfl : table' = table := Except.ok.inj (htable'.symm.trans htable)
  intro placed hplaced index hindex
  have hunit := exists_unit_of_static hplaced hindex
  have hnamed := isNamed_of_static (hvalid placed hplaced) hindex
  rw [haddress]
  apply Program.isStackCell_static himage hplaced hnamed.unit hindex
  intro other hother locals hcommand
  exact hnames other hother _ locals hcommand (isStaticName_staticSymbol hunit index)

/-- If units are lowered and the text of the listing is assembled, every symbol that a command jumps
to is declared, and no function has a name that looks like the symbol of a static cell, then the
computer simulates the stack machine: it comes to the first command with the stack set up, the stack
machine is never stuck in a safe state before the end, and the computer follows every run of it. -/
theorem computer_simulates {config : Config} {units : List SourceUnit} {listing : Listing}
    {code : MachineCode} (hlower : lower config units = .ok listing)
    (hcode : assemble listing.toText = .ok code)
    (hclosed : (Program.ofUnits config units).IsClosed)
    (hnames : ∀ placed ∈ (Program.ofUnits config units).commands, ∀ name locals,
      placed.command = .function name locals → ¬IsStaticName units name) :
    ∃ table, symbols listing.toText = .ok table ∧
      (∀ ram, ∃ n cpu, Cpu.Path Status.IsRunning n { Cpu.load code with ram := ram } cpu ∧
        Matches (Program.ofUnits config units) code
          ⟨0, if config.bootstrap then ram.setPointer .sp MemoryMap.stackBase else ram⟩ cpu) ∧
      (∀ state, (Program.ofUnits config units).Safe state →
        state.next < (Program.ofUnits config units).commands.length →
        ∃ next, (Program.ofUnits config units).step? table.address state = some next) ∧
      ∀ n state final, (Program.ofUnits config units).Run table.address n state final →
        ∀ cpu, Matches (Program.ofUnits config units) code state cpu →
          ∃ m cpu', Cpu.Path Status.IsAny m cpu cpu' ∧
            Matches (Program.ofUnits config units) code final cpu' := by
  obtain ⟨hvalid, image, himage, hrom, table, htable, haddress⟩ :=
    exists_image_of_units hlower hcode
  have hstatic := isStackCell_address_static hlower hcode hnames htable
  rw [haddress] at hstatic
  refine ⟨table, htable, exists_path_to_start himage hrom, fun state hsafe hlt =>
    Program.exists_step? hclosed _ hsafe hlt, fun n state final hrun cpu hmatches => ?_⟩
  rw [haddress] at hrun
  have hat := (Program.at_onward_iff himage).2 ⟨hmatches.rom.trans hrom.symm, hmatches.pc⟩
  obtain ⟨m, cpu', path, hat', hagrees⟩ :=
    Program.follows_run himage hvalid hstatic Status.isAny hrun hat hmatches.ram
  obtain ⟨hrom', hpc⟩ := (Program.at_onward_iff himage).1 hat'
  exact ⟨m, cpu', path, hrom'.trans hrom, hpc, hagrees⟩

/-- A function that keeps a word in a static cell and reads it behind a jump. -/
def keepingUnit : SourceUnit :=
  ⟨"Main", "function Main.f 0\npush constant 7\npop static 0\ngoto L\nlabel L\npush static 0"⟩

theorem commands_keepingUnit : (Program.ofUnits ⟨true, "Main.f"⟩ [keepingUnit]).commands =
    [⟨⟨"", none, 0⟩, .call "Main.f" 0⟩, ⟨⟨"Main", none, 1⟩, .function "Main.f" 0⟩,
      ⟨⟨"Main", some "Main.f", 2⟩, .push .constant 7⟩,
      ⟨⟨"Main", some "Main.f", 2⟩, .pop .static 0⟩, ⟨⟨"Main", some "Main.f", 2⟩, .goto "L"⟩,
      ⟨⟨"Main", some "Main.f", 2⟩, .label "L"⟩,
      ⟨⟨"Main", some "Main.f", 2⟩, .push .static 0⟩] := by
  decide +kernel

/-- In the body the word is pushed, popped into the cell, and pushed again behind the jump. -/
theorem run_body_keepingUnit {cells : String → Word}
    (hcell : Memory.isStackCell (cells "Main.0") = true) (ram : Memory)
    (hplace : Memory.isStackCell (ram.pointer .sp) = true) :
    (Program.ofUnits ⟨true, "Main.f"⟩ [keepingUnit]).Run cells 5 ⟨2, ram⟩
      ⟨7, ((ram.push 7).popInto (some (cells "Main.0"))).push 7⟩ := by
  have hcommands := commands_keepingUnit
  generalize Program.ofUnits ⟨true, "Main.f"⟩ [keepingUnit] = program at hcommands ⊢
  let body : Context := ⟨"Main", some "Main.f", 2⟩
  have hpush : program.commands[2]? = some ⟨body, .push .constant 7⟩ := by rw [hcommands]; rfl
  have hpop : program.commands[3]? = some ⟨body, .pop .static 0⟩ := by rw [hcommands]; rfl
  have hgoto : program.commands[4]? = some ⟨body, .goto "L"⟩ := by rw [hcommands]; rfl
  have hlabel : program.commands[5]? = some ⟨body, .label "L"⟩ := by rw [hcommands]; rfl
  have hread : program.commands[6]? = some ⟨body, .push .static 0⟩ := by rw [hcommands]; rfl
  have htarget : program.declaration? (body.scopedLabel "L") = some 5 := by
    rw [Program.declaration?, hcommands]
    decide +kernel
  have hconstant (ram : Memory) : segmentGuard ram .constant 7 := by
    intro pointer hpointer
    cases hpointer
  have hstatic (ram : Memory) : segmentGuard ram .static 0 := by
    intro pointer hpointer
    cases hpointer
  obtain ⟨htop, hword, hkept⟩ := Memory.popInto_push 7 hplace hcell
  have hpushes : program.step? cells ⟨2, ram⟩ = some ⟨3, ram.push 7⟩ := by
    simp only [Program.step?, hpush]
    rfl
  have hpops : program.step? cells ⟨3, ram.push 7⟩ =
      some ⟨4, (ram.push 7).popInto (some (cells "Main.0"))⟩ := by
    simp only [Program.step?, hpop]
    rfl
  generalize (ram.push 7).popInto (some (cells "Main.0")) = kept at hword hkept hpops ⊢
  have hjumps : program.step? cells ⟨4, kept⟩ = some ⟨5, kept⟩ := by
    simp only [Program.step?, hgoto, htarget, Option.map_some]
  have hpasses : program.step? cells ⟨5, kept⟩ = some ⟨6, kept⟩ := by
    simp only [Program.step?, hlabel]
  have hreads : program.step? cells ⟨6, kept⟩ = some ⟨7, kept.push 7⟩ := by
    rw [← hword]
    simp only [Program.step?, hread]
    rfl
  exact .cons_of_guard hpush ⟨hplace, hconstant _⟩ (by decide) hpushes
    (.cons_of_guard hpop ⟨htop, hstatic _⟩ (by decide) hpops
    (.cons_of_guard hgoto trivial (by decide) hjumps
    (.cons_of_guard hlabel trivial (by decide) hpasses
    (.cons_of_guard hread ⟨hkept.symm ▸ hplace, hstatic _⟩ (by decide) hreads (.refl _)))))

theorem run_keepingUnit {cells : String → Word} (hcell : Memory.isStackCell (cells "Main.0") = true)
    {ram : Memory} (hsp : ram.pointer .sp = 256) :
    ∃ final, (Program.ofUnits ⟨true, "Main.f"⟩ [keepingUnit]).Run cells 7 ⟨0, ram⟩ final ∧
      final.ram.pointer .sp = 262 ∧ final.ram.read 261 = 7 := by
  have hcommands := commands_keepingUnit
  have hbody := run_body_keepingUnit hcell
  generalize Program.ofUnits ⟨true, "Main.f"⟩ [keepingUnit] = program at hcommands hbody ⊢
  have hcall : program.commands[0]? = some ⟨⟨"", none, 0⟩, .call "Main.f" 0⟩ := by
    rw [hcommands]; rfl
  have hfunction : program.commands[1]? = some ⟨⟨"Main", none, 1⟩, .function "Main.f" 0⟩ := by
    rw [hcommands]; rfl
  have hentry : program.declaration? "Main.f" = some 1 := by
    rw [Program.declaration?, hcommands]
    decide +kernel
  have hroom : ram.hasRoom 5 := Memory.hasRoom_of_toNat (by rw [hsp]; decide) (by rw [hsp]; decide)
  have hentered := (Memory.pointers_pushFrame ram (.ofNat (program.start 1)) 0).1
  rw [hsp] at hentered
  have hcalls : program.step? cells ⟨0, ram⟩ =
      some ⟨1, ram.pushFrame (.ofNat (program.start 1)) 0⟩ := by
    simp only [Program.step?, hcall, hentry, Option.map_some]
  -- of the frame only the place of its end matters
  generalize ram.pushFrame (.ofNat (program.start 1)) 0 = entered at hentered hcalls
  have henters : program.step? cells ⟨1, entered⟩ = some ⟨2, entered⟩ := by
    simp only [Program.step?, hfunction]
    rfl
  have hplace : Memory.isStackCell (entered.pointer .sp) = true := by
    rw [hentered]
    decide
  obtain ⟨-, -, hkept⟩ := Memory.popInto_push 7 hplace hcell
  have hagain := Memory.read_push_self (hkept.symm ▸ hplace) 7
  refine ⟨_, .cons_of_guard hcall hroom (by decide) hcalls
    (.cons_of_guard hfunction (Memory.hasRoom_zero entered) (by decide) henters
      (hbody entered hplace)), ?_, ?_⟩
  · rw [Memory.pointer_sp_push, hkept, hentered]
    rfl
  · rwa [hkept, hentered] at hagain

/-- A program that calls a function, jumps in it and keeps a word in a static cell. -/
theorem computer_simulates_kept_word :
    ∃ listing code, lower ⟨true, "Main.f"⟩ [keepingUnit] = .ok listing ∧
      assemble listing.toText = .ok code ∧
      ∃ m cpu, Cpu.Path Status.IsAny m (Cpu.load code) cpu ∧
        cpu.ram.read 0 = 262 ∧ cpu.ram.read 261 = 7 := by
  obtain ⟨listing, code, hlower, hcode⟩ := exists_code_of_fits ⟨true, "Main.f"⟩ [keepingUnit]
    (by decide) (by decide +kernel) (by decide +kernel)
  have hclosed : (Program.ofUnits ⟨true, "Main.f"⟩ [keepingUnit]).IsClosed := by
    rw [Program.IsClosed, commands_keepingUnit]
    decide +kernel
  have hnames : ∀ placed ∈ (Program.ofUnits ⟨true, "Main.f"⟩ [keepingUnit]).commands,
      ∀ name locals, placed.command = .function name locals →
        ¬IsStaticName [keepingUnit] name := by
    have honly : ∀ placed ∈ (Program.ofUnits ⟨true, "Main.f"⟩ [keepingUnit]).commands,
        ∀ name locals, placed.command = .function name locals → name = "Main.f" := by
      simp +contextual [commands_keepingUnit]
    -- behind the point of the only name there is a letter
    rintro placed hplaced name locals hcommand ⟨unit, hunit, digits, -, hdigits, heq⟩
    obtain rfl := honly placed hplaced name locals hcommand
    obtain rfl := List.mem_singleton.1 hunit
    obtain rfl : digits = ['f'] := by simpa [keepingUnit] using heq.symm
    simp at hdigits
  obtain ⟨table, htable, hstart, -, hfollows⟩ := computer_simulates hlower hcode hclosed hnames
  have hcell := isStackCell_address_static hlower hcode hnames htable
    ⟨⟨"Main", some "Main.f", 2⟩, .pop .static 0⟩ (by simp [commands_keepingUnit]) 0 rfl
  obtain ⟨n, cpu, path, hmatches⟩ := hstart .zero
  obtain ⟨final, hrun, hsp, hword⟩ := run_keepingUnit hcell
    (Memory.pointer_setPointer_self .zero .sp MemoryMap.stackBase)
  obtain ⟨m, cpu', path', hmatches'⟩ := hfollows 7 _ _ hrun cpu hmatches
  refine ⟨listing, code, hlower, hcode, n + m, cpu',
    (path.mono fun status _ => status.isAny).trans path', ?_, ?_⟩
  · rw [hmatches'.ram 0 (by decide)]
    exact hsp
  · rw [hmatches'.ram 261 (by decide)]
    exact hword

end HackToolchain
