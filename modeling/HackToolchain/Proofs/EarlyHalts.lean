import HackToolchain.Proofs.Lowering.Blocks
import HackToolchain.Proofs.Lowering.Jumps
import HackToolchain.Proofs.Toolchain

/-!
# Where a generated program halts

Generated code halts in the loop at its end, or where a `goto` jumps to itself. No other jump makes
the computer halt, whatever state it is in.
-/

namespace HackToolchain

open Assembly Lowering Machine

namespace Lowering

namespace Program

variable {program : Program}

/-- A plain jump is in the block of a command, or it is that of the halt. -/
theorem exists_of_mem_beforeJumps {before : Block} (h : before ∈ beforeJumps program.statements) :
    (∃ k placed head, program.commands[k]? = some placed ∧ head ∈ beforeJumps placed.block ∧
      before = program.before k ++ head) ∨
    (program.bootstrap = false ∧ before = program.before program.commands.length ++
      [.label ("END_" ++ toString program.nextId), load ("END_" ++ toString program.nextId)]) := by
  have hprologue : beforeJumps (statementsOf program.prologue) = [] := by
    rw [prologue]
    split <;> rfl
  rw [statements_eq_blocks, beforeJumps_append, beforeJumps_append, hprologue, List.nil_append,
    List.mem_append, List.mem_map, List.mem_map] at h
  rcases h with ⟨rest, hrest, rfl⟩ | ⟨rest, hrest, rfl⟩
  · obtain ⟨k, placed, head, hplaced, hhead, rfl⟩ := mem_beforeJumps_flatMap hrest
    exact .inl ⟨k, placed, head, hplaced, hhead, by rw [Program.before, List.append_assoc]⟩
  · right
    rw [epilogue] at hrest
    split at hrest
    · simp [beforeJumps] at hrest
    · next hbootstrap =>
        obtain rfl := List.mem_singleton.1 hrest
        exact ⟨Bool.eq_false_iff.2 hbootstrap, by rw [Program.before, List.take_length]⟩

/-- The places where a program may halt: the jump of the loop at its end, and the jump of a `goto`
whose label stands for the address of its own load. -/
inductive HaltsAt (program : Program) (address? : String → Option Word) : Word → Prop
  | halt (h : program.bootstrap = false) :
      HaltsAt program address? (.ofNat (program.start program.commands.length + 1))
  | goto {k : Nat} {context : Context} {name : String}
      (hplaced : program.commands[k]? = some ⟨context, .goto name⟩)
      (htarget : address? (context.scopedLabel name) = some (.ofNat (program.start k))) :
      HaltsAt program address? (.ofNat (program.start k + 1))

section Image

variable {image : Image} (himage : image.statements = program.statements) {k : Nat} {placed : Placed}
  (hplaced : program.commands[k]? = some placed)
include himage hplaced

theorem haltsAt_goto {context : Context} {name : String}
    (hgoto : placed = ⟨context, .goto name⟩)
    (hself : (image.address (context.scopedLabel name)).toNat = program.start k) :
    program.HaltsAt (address? program.statements) (.ofNat (program.start k + 1)) := by
  have hload : load (context.scopedLabel name) ∈ image.statements := by
    rw [himage, program.statements_eq k, onward_eq hplaced, hgoto]
    simp [Placed.block, block]
  have hfound := Image.address?_of_mem hload
  have haddress : image.address (context.scopedLabel name) = .ofNat (program.start k) := by
    rw [← hself, UInt16.ofNat_toNat]
  rw [himage, haddress] at hfound
  exact .goto (hgoto ▸ hplaced) hfound

/-- A label that a command loads behind another instruction does not stand for the address of the
load. -/
theorem toNat_address_ne {front : Block} {i : Instruction Computation} {symbol : String}
    (hhead : front ++ [.instruction i, load symbol] ∈ beforeJumps placed.block)
    (hsymbol : symbol ∈ labels program.statements) :
    (image.address symbol).toNat ≠ codeSize (program.before k ++ front) + 1 := by
  obtain ⟨s, rest, hblock, -⟩ := mem_beforeJumps_iff.1 hhead
  have hstatements : image.statements = (program.before k ++ front) ++ .instruction i ::
      .instruction (.address (.symbol symbol)) :: s :: (rest ++ program.onward (k + 1)) := by
    rw [himage, program.statements_eq k, onward_eq hplaced, hblock]
    simp [load]
  exact Image.toNat_address_ne (himage ▸ hsymbol) hstatements

end Image

/-- If the functions that are called are declared then a computer that has an image of a program in
ROM halts at these places only. -/
theorem haltsAt_of_halted {image : Image} (himage : image.statements = program.statements)
    (hcalls : ∀ placed ∈ program.commands, ∀ name args, placed.command = .call name args →
      name ∈ labels program.statements) {cpu next : Cpu} (hrom : cpu.rom = image.rom)
    (h : cpu.step = (.ok .halted, next)) : program.HaltsAt (address? program.statements) cpu.pc := by
  obtain ⟨before, hbefore, operand, hpc, hlast, hself⟩ := Image.exists_beforeJumps_of_halted hrom h
  rw [hpc]
  rw [himage] at hbefore
  rcases exists_of_mem_beforeJumps hbefore with
    ⟨k, placed, head, hplaced, hhead, rfl⟩ | ⟨hbootstrap, rfl⟩
  · have hmem := List.mem_of_getElem? hplaced
    cases Placed.isGuarded_of_mem_beforeJumps hhead with
    | @goto context name hgoto =>
        obtain rfl : operand = .symbol (context.scopedLabel name) := by
          simpa [code_append, load, code, Statement.instruction?, eq_comm] using hlast
        have hsize : codeSize (program.before k ++ [load (context.scopedLabel name)]) =
            program.start k + 1 := by
          simp [start, load]
        rw [hsize] at hself ⊢
        exact haltsAt_goto himage hplaced hgoto (Nat.succ.inj hself)
    | loaded front i symbol hsymbol =>
        obtain rfl : operand = .symbol symbol := by
          simpa [code_append, load, code, Statement.instruction?, eq_comm] using hlast
        have hlabel : symbol ∈ labels program.statements := by
          rcases hsymbol with hgenerated | ⟨context, args, rfl⟩
          · exact mem_labels_of_generated hmem hgenerated
          · exact hcalls _ hmem symbol args rfl
        have hsize : codeSize (program.before k ++ (front ++ [.instruction i, load symbol])) =
            codeSize (program.before k ++ front) + 1 + 1 := by
          simp [load, Nat.add_assoc]
        rw [hsize] at hself
        exact absurd (Nat.succ.inj hself) (toNat_address_ne himage hplaced hhead hlabel)
    | computed front c => simp [code, Statement.instruction?] at hlast
  · simpa [start, load] using HaltsAt.halt hbootstrap

theorem HaltsAt.exists_goto {image : Image} (himage : image.statements = program.statements)
    {address? : String → Option Word} {pc : Word} (h : program.HaltsAt address? pc) {k : Nat}
    {placed : Placed} (hplaced : program.commands[k]? = some placed)
    (hle : program.start k ≤ pc.toNat) (hlt : pc.toNat < program.start (k + 1)) :
    ∃ context name, placed = ⟨context, .goto name⟩ ∧
      address? (context.scopedLabel name) = some (.ofNat (program.start k)) := by
  have hnat (j : Nat) : (UInt16.ofNat (program.start j + 1)).toNat = program.start j + 1 := by
    have hroom := Nat.succ_le_succ (start_le_romSize himage j)
    exact UInt16.toNat_ofNat_of_lt' (Nat.lt_of_le_of_lt hroom (by decide))
  cases h with
  | halt hbootstrap =>
      rw [hnat] at hlt
      have hlast : k + 1 ≤ program.commands.length := (List.getElem?_eq_some_iff.1 hplaced).1
      have hend : program.start (k + 1) ≤ program.start program.commands.length :=
        start_le_start hlast
      omega
  | @goto j context name hgoto htarget =>
      rw [hnat] at hle hlt
      have hsize : program.start (j + 1) = program.start j + 2 := start_succ hgoto
      rcases Nat.lt_trichotomy j k with hbefore | rfl | hbehind
      · have hstart : program.start (j + 1) ≤ program.start k := start_le_start hbefore
        omega
      · exact ⟨context, name, Option.some.inj (hplaced.symm.trans hgoto), htarget⟩
      · have hstart : program.start (k + 1) ≤ program.start j := start_le_start hbehind
        omega

/-- Whether code with the words of `rom` halts only where its program may: at one of these places, in
the block of a command only if that is a `goto` to itself, and so at the end of each run that
succeeds. -/
structure HaltsOnPurpose (program : Program) (address? : String → Option Word) (rom : Array Word) :
    Prop where
  step : ∀ cpu next : Cpu, cpu.rom = rom → cpu.step = (.ok .halted, next) →
    program.HaltsAt address? cpu.pc
  block : ∀ cpu next : Cpu, cpu.rom = rom → cpu.step = (.ok .halted, next) →
    ∀ k placed, program.commands[k]? = some placed →
      program.start k ≤ cpu.pc.toNat → cpu.pc.toNat < program.start (k + 1) →
        ∃ context name, placed = ⟨context, .goto name⟩ ∧
          address? (context.scopedLabel name) = some (.ofNat (program.start k))
  run : ∀ (cpu final : Cpu) limit cycles, cpu.rom = rom → cpu.run limit = (.ok cycles, final) →
    ∃ n mid, Cpu.Path Status.IsRunning n cpu mid ∧ mid.step = (.ok .halted, final) ∧
      program.HaltsAt address? mid.pc

end Program

end Lowering

/-- If units are lowered and the text of the listing is assembled, and the functions that are called
are declared, then the code halts only at the jump of the loop at its end and at the jump of a `goto`
whose label stands for the address of its own load. -/
theorem halts_on_purpose {config : Config} {units : List SourceUnit} {listing : Listing}
    {code : MachineCode} (hlower : lower config units = .ok listing)
    (hcode : assemble listing.toText = .ok code)
    (hcalls : ∀ placed ∈ (Program.ofUnits config units).commands, ∀ name args,
      placed.command = .call name args → name ∈ labels (Program.ofUnits config units).statements) :
    ∃ table, symbols listing.toText = .ok table ∧
      (Program.ofUnits config units).HaltsOnPurpose table.find? code.words := by
  obtain ⟨hvalid, image, himage, hrom, table, htable, -⟩ := exists_image_of_units hlower hcode
  obtain ⟨-, -, rfl⟩ := lower_eq_ok_iff.1 hlower
  have hfind := find?_of_symbols (Program.isWritable_of_mem_lines hvalid) htable
  have hstep (cpu next : Cpu) (hcpu : cpu.rom = code.words) (h : cpu.step = (.ok .halted, next)) :
      (Program.ofUnits config units).HaltsAt table.find? cpu.pc := by
    rw [hfind]
    exact Program.haltsAt_of_halted himage hcalls (hcpu.trans hrom.symm) h
  refine ⟨table, htable, hstep, fun cpu next hcpu h k placed => ?_,
    fun cpu final limit cycles hcpu hrun => ?_⟩
  · exact (hstep cpu next hcpu h).exists_goto himage
  · obtain ⟨n, mid, path, hhalt⟩ := Cpu.exists_path_of_runWithin hrun
    exact ⟨n, mid, path, hhalt, hstep mid final (path.rom_eq.trans hcpu) hhalt⟩

/-- A function with a comparison, a call of itself, and a `goto` to itself. -/
theorem halts_on_purpose_loop :
    ∃ listing code table,
      lower {} [⟨"Main", "function Main.f 0\neq\ncall Main.f 0\nlabel L\ngoto L"⟩] = .ok listing ∧
      assemble listing.toText = .ok code ∧ symbols listing.toText = .ok table ∧
      (Program.ofUnits {} [⟨"Main",
        "function Main.f 0\neq\ncall Main.f 0\nlabel L\ngoto L"⟩]).HaltsOnPurpose table.find?
          code.words := by
  obtain ⟨listing, code, hlower, hcode⟩ := exists_code_of_fits {}
    [⟨"Main", "function Main.f 0\neq\ncall Main.f 0\nlabel L\ngoto L"⟩]
    (by decide) (by decide +kernel) (by decide +kernel)
  have hcommands : (Program.ofUnits {} [⟨"Main",
      "function Main.f 0\neq\ncall Main.f 0\nlabel L\ngoto L"⟩]).commands.map (·.command) =
        [.function "Main.f" 0, .operate .eq, .call "Main.f" 0, .label "L", .goto "L"] := by
    decide +kernel
  have hdeclared : "Main.f" ∈ labels (Program.ofUnits {} [⟨"Main",
      "function Main.f 0\neq\ncall Main.f 0\nlabel L\ngoto L"⟩]).statements := by
    decide +kernel
  obtain ⟨table, htable, hhalts⟩ := halts_on_purpose hlower hcode (by
    intro placed hplaced name args hcall
    have hmem := List.mem_map_of_mem (f := (·.command)) hplaced
    rw [hcommands, hcall] at hmem
    obtain ⟨rfl, -⟩ : name = "Main.f" ∧ args = 0 := by simpa using hmem
    exact hdeclared)
  exact ⟨listing, code, table, hlower, hcode, htable, hhalts⟩

end HackToolchain
