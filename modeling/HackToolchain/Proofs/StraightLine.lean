import HackToolchain.Proofs.Lowering.StraightRun
import HackToolchain.Proofs.Toolchain

/-!
# Straight-line programs

Units without jumps, calls and pointers are lowered and assembled whenever they fit into ROM, and if
they never pop from an empty stack then the computer halts with their result in RAM, within twelve
steps for each command and two for the halt.
-/

namespace HackToolchain

open Assembly Lowering Machine Vm

namespace Lowering.Program

/-- A program without jumps that fits into the machine assembles, and its static cells have the
addresses from 16 on in the order of their first use. -/
theorem exists_image_of_straight {program : Program} (hbootstrap : program.bootstrap = false)
    (hvalid : ∀ placed ∈ program.commands, placed.IsValid)
    (hstraight : ∀ placed ∈ program.commands, placed.command.isStraight = true)
    (hnames : ∀ placed ∈ program.commands, Symbol.isName placed.context.unit = true)
    (hnumbers : program.commands.Pairwise fun p q => p.nextId ≤ q.context.nextId)
    (hlast : ∀ placed ∈ program.commands, placed.nextId ≤ program.nextId)
    (hsize : codeSize program.statements ≤ MemoryMap.romSize)
    (hcells : (staticCells (program.commands.map Placed.pair)).length ≤ 240) :
    ∃ code, assemble (Listing.ofLines program.lines.toArray).toText = .ok code ∧
      ∃ image : Image, image.statements = program.statements ∧ image.rom = code.words ∧
        ∀ placed ∈ program.commands, ∀ index ∈ placed.static?, ∃ place,
          (staticCells (program.commands.map Placed.pair))[place]? =
            some (placed.context.unit, index) ∧
          image.address (placed.context.staticSymbol index) = variableCell place := by
  have hvariables := variableSymbols_statements hbootstrap hstraight hnames
  have hcount : (variableSymbols (statementsOf program.lines)).length ≤
      MemoryMap.variableCount := by
    rw [← statements, hvariables, List.length_map]
    exact Nat.le_trans hcells (by decide)
  obtain ⟨hnodup, hfree⟩ := areFresh_of_isStraight hvalid hnumbers hlast hstraight
  obtain ⟨code, hcode⟩ := exists_assemble (isWritable_of_mem_lines hvalid) hnodup hfree hsize hcount
    (fun name address => labelAddress?_lt hbootstrap hsize)
  obtain ⟨image, hstatements, hrom⟩ := exists_image (isWritable_of_mem_lines hvalid) hcode
  refine ⟨code, hcode, image, hstatements, hrom, fun placed hplaced index hindex => ?_⟩
  have hmem : (placed.context.unit, index) ∈ staticCells (program.commands.map Placed.pair) := by
    rw [staticCells, List.mem_eraseDups, List.mem_filterMap]
    refine ⟨placed.pair, List.mem_map_of_mem hplaced, ?_⟩
    have hcell := placed.cell?_eq
    rw [hindex] at hcell
    exact hcell
  obtain ⟨place, hlt, hplace⟩ := List.getElem_of_mem hmem
  have hplace := (List.getElem?_eq_getElem hlt).trans (congrArg some hplace)
  refine ⟨place, hplace, ?_⟩
  have hfound : address? image.statements (placed.context.staticSymbol index) =
      some (variableCell place) := by
    rw [hstatements]
    apply address?_of_variableSymbols
    · exact Nat.lt_of_lt_of_le hlt (Nat.le_trans hcells (by decide))
    · rw [statements] at hvariables
      rw [hvariables, List.getElem?_map, hplace]
      rfl
  rw [Image.address, hfound, Option.getD_some]

end Lowering.Program

/-- Units whose commands are operators, pushes and pops of the constant, temp and static segments
are lowered and assembled if they fit into the machine. If no command pops from an empty stack, the
computer with nothing but `SP` set halts after at most twelve steps for each command and two more,
and RAM shows the stack from cell 256 on, the temp segment from cell 5 on, and the static cells from
cell 16 on in the order of their first use. -/
theorem straight_line_runs {config : Config} {units : List SourceUnit} {store : Store}
    (hbootstrap : config.bootstrap = false) (hunits : ∀ unit ∈ units, unit.IsValid)
    (hstraight : ∀ pair ∈ commandsOf units, pair.2.isStraight = true)
    (hcells : (staticCells (commandsOf units)).length ≤ 240)
    (hsize : ∀ listing, lower config units = .ok listing →
      listing.instructionCount ≤ MemoryMap.romSize)
    (hrun : Store.run? .empty (commandsOf units) = some store) :
    ∃ listing code, lower config units = .ok listing ∧ assemble listing.toText = .ok code ∧
      ∃ cycles cpu, cycles ≤ 12 * (commandsOf units).length + 2 ∧
        (∀ limit ≥ 12 * (commandsOf units).length + 2,
          ((Cpu.load code).setRam 0 256).run limit = (.ok cycles, cpu)) ∧
        cpu.ram.read 0 = 256 + .ofNat store.stack.length ∧
        (∀ i w, store.stack.reverse[i]? = some w → cpu.ram.read (256 + .ofNat i) = w) ∧
        (∀ index ≤ 7, cpu.ram.read (5 + index) = store.temp index) ∧
        ∀ j unit index, (staticCells (commandsOf units))[j]? = some (unit, index) →
          cpu.ram.read (16 + .ofNat j) = store.static unit index := by
  have hentry : ∀ command ∈ Program.entry config, command.defect? = none := by
    simp [Program.entry, hbootstrap]
  have hlower := lower_eq_ok_iff.2 ⟨hentry, hunits, rfl⟩
  have hsize := hsize _ hlower
  rw [instructionCount_ofLines] at hsize
  have hvalid := Program.isValid_of_mem_ofUnits hentry hunits
  have hpairs : (Program.ofUnits config units).commands.map Placed.pair = commandsOf units := by
    rw [Program.map_pair_ofUnits, Program.entry, hbootstrap]
    rfl
  have hcommands : ∀ placed ∈ (Program.ofUnits config units).commands,
      placed.command.isStraight = true := by
    intro placed hplaced
    exact hstraight placed.pair (hpairs ▸ List.mem_map_of_mem hplaced)
  have hnames : ∀ placed ∈ (Program.ofUnits config units).commands,
      Symbol.isName placed.context.unit = true := by
    intro placed hplaced
    rcases Program.exists_unit_of_mem_ofUnits hplaced with hcall | ⟨unit, hunit, hname⟩
    · have hno := hcommands placed hplaced
      simp [hcall, Command.isStraight] at hno
    · exact hname ▸ (hunits unit hunit).name
  rw [← hpairs] at hcells hrun ⊢
  obtain ⟨code, hcode, image, himage, hrom, hstatics⟩ := Program.exists_image_of_straight hbootstrap
    hvalid hcommands hnames (Program.pairwise_ofUnits config units)
    (fun placed => Program.nextId_of_mem_ofUnits) hsize hcells
  refine ⟨_, code, hlower, hcode, ?_⟩
  have hat : image.At ((Program.ofUnits config units).onward 0) ((Cpu.load code).setRam 0 256) := by
    rw [Program.at_onward_iff himage]
    refine ⟨hrom.symm, ?_⟩
    simp [Program.start, Program.before, Program.prologue, Program.ofUnits, hbootstrap, Cpu.setRam,
      Cpu.load]
  obtain ⟨n, hn, cpu, path, hat', hholds⟩ := Program.exists_path_of_run? himage hvalid hcommands
    (nodup_eraseDups _) hcells hstatics (Nat.zero_le _) hrun hat (Holds.initial hcells)
    (Nat.zero_le _)
  have hend : (Program.ofUnits config units).onward
      (Program.ofUnits config units).commands.length =
        statementsOf (haltLines (Program.ofUnits config units).nextId) := by
    rw [Program.onward, List.drop_length, Program.epilogue]
    simp [Program.ofUnits, hbootstrap]
  -- behind the last command is the loop that halts
  rw [hend] at hat'
  obtain ⟨mid, final, hstep, hstep', hram⟩ := hat'.step_loop
  have path' := path.trans (.single hstep Status.isRunning_running)
  have hcycles : ((Cpu.load code).setRam 0 256).cycles = 0 := rfl
  rw [List.length_map]
  refine ⟨_, final, ?_, fun limit hlimit => Cpu.run_of_path path' hstep' (by omega), ?_⟩
  · omega
  · rw [hram]
    refine ⟨hholds.stack.sp, fun i w hw => hholds.stack.read_of_getElem? hw, hholds.cells.temp,
      fun j unit index hj => hholds.cells.static j _ hj⟩

/-- Two units that keep a word each in their first static cell, and compare what they kept. -/
theorem straight_line_runs_two_units :
    ∃ listing code,
      lower {} [⟨"Main", "push constant 7\npop static 0"⟩,
        ⟨"Other", "push constant 9\npop static 0\npush static 0\npush constant 7\ngt"⟩] =
          .ok listing ∧
      assemble listing.toText = .ok code ∧
      ∃ cycles cpu, ((Cpu.load code).setRam 0 256).run 100 = (.ok cycles, cpu) ∧
        cpu.ram.read 0 = 257 ∧ cpu.ram.read 256 = -1 ∧ cpu.ram.read 16 = 7 ∧
        cpu.ram.read 17 = 9 := by
  let units : List SourceUnit := [⟨"Main", "push constant 7\npop static 0"⟩,
    ⟨"Other", "push constant 9\npop static 0\npush static 0\npush constant 7\ngt"⟩]
  have hcommands : commandsOf units = [("Main", .push .constant 7), ("Main", .pop .static 0),
      ("Other", .push .constant 9), ("Other", .pop .static 0), ("Other", .push .static 0),
      ("Other", .push .constant 7), ("Other", .operate .gt)] := by decide +kernel
  have hunits : ∀ unit ∈ units, unit.IsValid := by decide +kernel
  have hsize : ∀ listing, lower {} units = .ok listing →
      listing.instructionCount ≤ MemoryMap.romSize := by
    intro listing hlower
    have hcount : ((lower {} units).toOption.map (·.instructionCount)).getD 0 ≤
        MemoryMap.romSize := by decide +kernel
    rwa [hlower] at hcount
  obtain ⟨store, hrun, hstack, hmain, hother⟩ : ∃ store,
      Store.run? .empty (commandsOf units) = some store ∧ store.stack = [-1] ∧
        store.static "Main" 0 = 7 ∧ store.static "Other" 0 = 9 := by
    rw [hcommands]
    exact ⟨_, rfl, rfl, rfl, rfl⟩
  obtain ⟨listing, code, hlower, hcode, cycles, cpu, -, hruns, hsp, hword, -, hstatic⟩ :=
    straight_line_runs (show ({} : Config).bootstrap = false from rfl) hunits
      (by rw [hcommands]; decide) (by rw [hcommands]; decide) hsize hrun
  refine ⟨listing, code, hlower, hcode, cycles, cpu, hruns 100 (by rw [hcommands]; decide), ?_,
    hword 0 (-1) (by rw [hstack]; rfl), ?_, ?_⟩
  · rw [hsp, hstack]
    rfl
  · exact (hstatic 0 "Main" 0 (by rw [hcommands]; decide)).trans hmain
  · exact (hstatic 1 "Other" 0 (by rw [hcommands]; decide)).trans hother

end HackToolchain
