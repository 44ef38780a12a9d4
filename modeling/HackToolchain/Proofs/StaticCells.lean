import HackToolchain.Proofs.Lowering.Statics
import HackToolchain.Proofs.Toolchain

/-!
# Whether static cells are private

The static cells of a program are private when each has an address of its own in RAM that every
access uses, and that was allocated for it. A function may have the name that a static cell gets as
its symbol. Then the accesses go to where the address of the function says, and this is the only
thing that can go wrong.
-/

namespace HackToolchain

open Assembly Lowering Machine Vm

/-- An address for each static cell that units use: no address is used twice, all are in RAM behind
the registers, each load of a static cell in the code is that of its address, and after the labels
are bound the symbol of a static cell is still free. -/
structure ArePrivate (config : Config) (units : List SourceUnit) (listing : Listing)
    (code : MachineCode) (address : String × Word → Word) : Prop where
  injective : ∀ cell ∈ staticCells (commandsOf units), ∀ other ∈ staticCells (commandsOf units),
    address cell = address other → cell = other
  inRange : ∀ cell ∈ staticCells (commandsOf units), 16 ≤ address cell ∧ address cell ≤ 32767
  accessed : ∀ k placed index before after,
    (Program.ofUnits config units).commands[k]? = some placed → placed.static? = some index →
      placed.block = before ++ load (placed.context.staticSymbol index) :: after →
        code.words[(Program.ofUnits config units).start k + codeSize before]? =
          some (address (placed.context.unit, index))
  allocated : ∀ cell ∈ staticCells (commandsOf units), ∃ statements table,
    readText listing.toText = .ok statements ∧ bindLabels 0 .initial statements = .ok table ∧
      table.find? (cellSymbol cell) = none

theorem Assembly.exists_bindLabels_of_assemble {ls : List Line} (h : ∀ line ∈ ls, line.IsWritable)
    {code : MachineCode} (hcode : assemble (Listing.ofLines ls.toArray).toText = .ok code) :
    ∃ statements table, readText (Listing.ofLines ls.toArray).toText = .ok statements ∧
      bindLabels 0 .initial statements = .ok table ∧
      ∀ symbol, table.find? symbol = (Symbol.predefined? symbol).or
        ((labelAddress? symbol (statementsOf ls)).map .ofNat) := by
  obtain ⟨statements, hread, hvalues⟩ := exists_readText h
  obtain ⟨table, htable⟩ := exists_symbols_of_assemble hcode
  have hlink : link statements = .ok table := by
    rw [symbols, hread] at htable
    exact htable
  cases hbind : bindLabels 0 .initial statements with
  | error fault => simp [link, hbind, Except.map] at hlink
  | ok bound =>
      refine ⟨statements, bound, hread, hbind, fun symbol => ?_⟩
      rw [(find?_of_bindLabels hbind).1, hvalues, labelAddress?_map_spelled]
      simp [statementsOf]

section Private

variable {config : Config} {units : List SourceUnit} {listing : Listing} {code : MachineCode}

theorem exists_placed_of_mem_staticCells (config : Config) {unit : String} {index : Word}
    (h : (unit, index) ∈ staticCells (commandsOf units)) :
    ∃ placed ∈ (Program.ofUnits config units).commands, placed.context.unit = unit ∧
      placed.static? = some index := by
  rw [staticCells, List.mem_eraseDups, List.mem_filterMap] at h
  obtain ⟨pair, hpair, hcell⟩ := h
  have hmem : pair ∈ (Program.ofUnits config units).commands.map Placed.pair := by
    rw [Program.map_pair_ofUnits]
    exact List.mem_append_right _ hpair
  obtain ⟨placed, hplaced, rfl⟩ := List.mem_map.1 hmem
  have hstatic : placed.cell? = some (unit, index) := hcell
  rw [Placed.cell?_eq] at hstatic
  obtain ⟨index, hindex, heq⟩ := Option.map_eq_some_iff.1 hstatic
  obtain ⟨rfl, rfl⟩ := Prod.mk.inj heq
  exact ⟨placed, hplaced, rfl, hindex⟩

theorem mem_commandsOf_of_function {placed : Placed} {name : String} {locals : Word}
    (h : placed ∈ (Program.ofUnits config units).commands)
    (hcommand : placed.command = .function name locals) :
    (placed.context.unit, .function name locals) ∈ commandsOf units := by
  have hmem : placed.pair ∈ (Program.ofUnits config units).commands.map Placed.pair :=
    List.mem_map_of_mem h
  rw [Program.map_pair_ofUnits, List.mem_append] at hmem
  rcases hmem with hentry | hmem
  · obtain ⟨command, hentry, hpair⟩ := List.mem_map.1 hentry
    have hfunction : command = .function name locals := (congrArg Prod.snd hpair).trans hcommand
    rw [Program.entry] at hentry
    split at hentry
    · rw [List.mem_singleton.1 hentry] at hfunction
      simp at hfunction
    · simp at hentry
  · rwa [Placed.pair, hcommand] at hmem

/-- Static cells are not private where a function has the name of one as its own. -/
theorem not_arePrivate_of_function (hlower : lower config units = .ok listing)
    (hcode : assemble listing.toText = .ok code) {cell : String × Word} {unit : String}
    {locals : Word}
    (hcell : cell ∈ staticCells (commandsOf units))
    (hfunction : (unit, .function (cellSymbol cell) locals) ∈ commandsOf units)
    (address : String × Word → Word) : ¬ArePrivate config units listing code address := by
  intro hprivate
  obtain ⟨hentry, hunits, rfl⟩ := lower_eq_ok_iff.1 hlower
  have hlines := Program.isWritable_of_mem_lines (Program.isValid_of_mem_ofUnits hentry hunits)
  obtain ⟨statements, table, hread, hbind, hfree⟩ := hprivate.allocated cell hcell
  obtain ⟨statements', table', hread', hbind', hfind⟩ := exists_bindLabels_of_assemble hlines hcode
  obtain rfl := Except.ok.inj (hread.symm.trans hread')
  obtain rfl := Except.ok.inj (hbind.symm.trans hbind')
  have hmem : (unit, .function (cellSymbol cell) locals) ∈
      (Program.ofUnits config units).commands.map Placed.pair := by
    rw [Program.map_pair_ofUnits]
    exact List.mem_append_right _ hfunction
  obtain ⟨placed, hplaced, hpair⟩ := List.mem_map.1 hmem
  have hdeclared : placed.declared? = some (cellSymbol cell) := by
    obtain ⟨context, command⟩ := placed
    obtain rfl : command = .function (cellSymbol cell) locals := congrArg Prod.snd hpair
    rfl
  have hlabel := Program.mem_labels_of_declared hplaced hdeclared
  rw [hfind, Option.or_eq_none_iff, Option.map_eq_none_iff, labelAddress?_eq_none_iff] at hfree
  exact hfree.2 hlabel

/-- Static cells are private where no function has the name of one as its own. -/
theorem exists_arePrivate (hlower : lower config units = .ok listing)
    (hcode : assemble listing.toText = .ok code)
    (hfree : ∀ cell ∈ staticCells (commandsOf units), ∀ unit locals,
      (unit, Command.function (cellSymbol cell) locals) ∉ commandsOf units) :
    ∃ address, ArePrivate config units listing code address := by
  obtain ⟨hvalid, image, himage, hrom, -⟩ := exists_image_of_units hlower hcode
  have hvariable : ∀ cell ∈ staticCells (commandsOf units),
      ∃ place < MemoryMap.variableCount, image.address (cellSymbol cell) = variableCell place ∧
        (variableSymbols image.statements)[place]? = some (cellSymbol cell) := by
    rintro ⟨unit, index⟩ hcell
    obtain ⟨placed, hplaced, rfl, hindex⟩ := exists_placed_of_mem_staticCells config hcell
    have hnamed := isNamed_of_static (hvalid placed hplaced) hindex
    apply Program.exists_variableCell_static himage hplaced hnamed.unit hindex
    intro other hother locals hcommand
    exact hfree _ hcell _ locals (mem_commandsOf_of_function hother hcommand)
  refine ⟨fun cell => image.address (cellSymbol cell), fun cell hcell other hother heq => ?_,
    fun cell hcell => ?_, fun k placed index before after hplaced hstatic hblock => ?_,
    fun cell hcell => ?_⟩
  -- no two cells have one address: the list of all variables has no symbol twice
  · obtain ⟨place, hlt, haddress, hplace⟩ := hvariable cell hcell
    obtain ⟨place', hlt', haddress', hplace'⟩ := hvariable other hother
    have hnat := congrArg UInt16.toNat (haddress.symm.trans (heq.trans haddress'))
    rw [toNat_variableCell hlt, toNat_variableCell hlt'] at hnat
    obtain rfl : place = place' := by omega
    exact cellSymbol_injective (Option.some.inj (hplace.symm.trans hplace'))
  · obtain ⟨place, hlt, haddress, -⟩ := hvariable cell hcell
    have hnat := toNat_variableCell hlt
    have hcount : MemoryMap.variableCount = 32752 := rfl
    simp only [haddress, UInt16.le_iff_toNat_le, hnat]
    exact ⟨by simp, by simp; omega⟩
  -- each load in a block is an instruction of the program
  · have hmid : image.statements =
        ((Program.ofUnits config units).before k ++ before) ++
          load (placed.context.staticSymbol index) ::
            (after ++ (Program.ofUnits config units).onward (k + 1)) := by
      rw [himage, Program.statements_eq _ k, Program.onward_eq hplaced, hblock]
      simp
    have hword := Image.getElem?_rom_symbol hmid
    rw [codeSize_append, hrom] at hword
    exact hword
  -- a variable is no label, so the first pass leaves its symbol free
  · obtain ⟨hentry, hunits, rfl⟩ := lower_eq_ok_iff.1 hlower
    obtain ⟨statements, table, hread, hbind, hfind⟩ :=
      exists_bindLabels_of_assemble (Program.isWritable_of_mem_lines hvalid) hcode
    obtain ⟨place, -, -, hplace⟩ := hvariable cell hcell
    obtain ⟨hpredefined, hlabel⟩ := free_of_mem_variableSymbols (List.mem_of_getElem? hplace)
    refine ⟨statements, table, hread, hbind, ?_⟩
    rw [himage] at hlabel
    rw [hfind, hpredefined, ← Program.statements, hlabel]
    rfl

/-- Static cells are private if and only if no function has the name of one as its own. -/
theorem exists_arePrivate_iff (hlower : lower config units = .ok listing)
    (hcode : assemble listing.toText = .ok code) :
    (∃ address, ArePrivate config units listing code address) ↔
      ∀ cell ∈ staticCells (commandsOf units), ∀ unit locals,
        (unit, Command.function (cellSymbol cell) locals) ∉ commandsOf units := by
  refine ⟨fun ⟨address, hprivate⟩ cell hcell unit locals hfunction => ?_,
    exists_arePrivate hlower hcode⟩
  exact not_arePrivate_of_function hlower hcode hcell hfunction address hprivate

end Private

/-- The static cells of two units, in a program with a function. -/
theorem exists_arePrivate_two_units :
    ∃ listing code,
      lower {} [⟨"Main", "function Main.f 0\npush constant 7\npop static 0"⟩,
        ⟨"Other", "push static 0"⟩] = .ok listing ∧
      assemble listing.toText = .ok code ∧
      ∃ address, ArePrivate {} [⟨"Main", "function Main.f 0\npush constant 7\npop static 0"⟩,
        ⟨"Other", "push static 0"⟩] listing code address := by
  obtain ⟨listing, code, hlower, hcode⟩ := exists_code_of_fits {}
    [⟨"Main", "function Main.f 0\npush constant 7\npop static 0"⟩, ⟨"Other", "push static 0"⟩]
    (by decide) (by decide +kernel) (by decide +kernel)
  have hcommands : commandsOf [⟨"Main", "function Main.f 0\npush constant 7\npop static 0"⟩,
      ⟨"Other", "push static 0"⟩] = [("Main", .function "Main.f" 0), ("Main", .push .constant 7),
        ("Main", .pop .static 0), ("Other", .push .static 0)] := by decide +kernel
  refine ⟨listing, code, hlower, hcode, (exists_arePrivate_iff hlower hcode).2 ?_⟩
  intro cell hcell unit locals hfunction
  have hnames : ∀ cell ∈ staticCells
      (commandsOf [⟨"Main", "function Main.f 0\npush constant 7\npop static 0"⟩,
        ⟨"Other", "push static 0"⟩]), cellSymbol cell ≠ "Main.f" := by
    rw [hcommands]
    decide
  simp only [hcommands, List.mem_cons, Prod.mk.injEq, Command.function.injEq, reduceCtorEq,
    and_false, List.not_mem_nil, or_false] at hfunction
  exact hnames cell hcell hfunction.2.1

/-- A function with the name that the static cell of its unit gets: the word that is popped into the
cell goes to the address of the function. -/
theorem not_arePrivate_function_named_static :
    ∃ listing code,
      lower {} [⟨"Main", "function Main.0 0\npush constant 7\npop static 0\n"⟩] = .ok listing ∧
      assemble listing.toText = .ok code ∧
      ¬∃ address, ArePrivate {} [⟨"Main", "function Main.0 0\npush constant 7\npop static 0\n"⟩]
        listing code address := by
  obtain ⟨listing, code, hlower, hcode⟩ := exists_code_of_fits {}
    [⟨"Main", "function Main.0 0\npush constant 7\npop static 0\n"⟩]
    (by decide) (by decide +kernel) (by decide +kernel)
  have hcommands : commandsOf [⟨"Main", "function Main.0 0\npush constant 7\npop static 0\n"⟩] =
      [("Main", .function "Main.0" 0), ("Main", .push .constant 7), ("Main", .pop .static 0)] := by
    decide +kernel
  refine ⟨listing, code, hlower, hcode, fun ⟨address, hprivate⟩ => ?_⟩
  have hcell : ("Main", 0) ∈ staticCells
      (commandsOf [⟨"Main", "function Main.0 0\npush constant 7\npop static 0\n"⟩]) := by
    rw [hcommands]
    decide
  have hfunction : ("Main", Command.function (cellSymbol ("Main", 0)) 0) ∈
      commandsOf [⟨"Main", "function Main.0 0\npush constant 7\npop static 0\n"⟩] := by
    rw [hcommands]
    decide
  exact not_arePrivate_of_function hlower hcode hcell hfunction address hprivate

end HackToolchain
