import HackToolchain.Proofs.Lowering.Calls
import HackToolchain.Proofs.Toolchain

/-!
# The protocol of calls and returns

Whatever a function does between a call and the matching return, as long as it leaves the frames
alone: the caller goes on behind the call with its own pointers, and with the returned word in place
of the arguments. A function without arguments returns its word to where its return address was.
-/

namespace HackToolchain

open Assembly Lowering Machine Vm

theorem Lowering.Program.exists_balanced_function {program : Program} {image : Image} {k : Nat}
    {name : String} {value : Word} {context context' : Context} {cpu : Cpu} {frames : List Word}
    (himage : image.statements = program.statements) (hat : image.At (program.onward k) cpu)
    (hfunction : program.commands[k]? = some ⟨context, .function name 0⟩)
    (hpush : program.commands[k + 1]? = some ⟨context', .push .constant value⟩)
    (hcell : Memory.isStackCell (cpu.ram.pointer .sp) = true)
    (hframes : ∀ frame ∈ frames, 21 ≤ frame.toNat ∧ frame.toNat ≤ (cpu.ram.pointer .sp).toNat) :
    ∃ final, program.Balanced frames k cpu (k + 2) final ∧
      image.At (program.onward (k + 2)) final ∧ final.ram = cpu.ram.push value := by
  obtain ⟨mid, hpasses, hat', hmid⟩ := exists_executes_function himage hat hfunction
  obtain ⟨final, hpushes, hat'', hfinal⟩ :=
    exists_executes_push_constant himage hat' hpush (hmid ▸ hcell)
  refine ⟨final, ?_, hat'', hmid ▸ hfinal⟩
  refine .block hfunction rfl hpasses (hmid ▸ .refl _ _) ((at_onward_iff himage).1 hat').2 ?_
  refine .block hpush rfl hpushes ?_ ((at_onward_iff himage).1 hat'').2 (.refl _ _ _)
  rw [hfinal, hmid]
  exact .push value hcell hframes

/-- A function without arguments and locals that returns a number, called with an empty stack. -/
theorem Lowering.Program.exists_balanced_call {program : Program} {image : Image} {name : String}
    {value : Word} {c₀ c₁ c₂ c₃ : Context} (himage : image.statements = program.statements)
    (hcommands : program.commands = [⟨c₀, .call name 0⟩, ⟨c₁, .function name 0⟩,
      ⟨c₂, .push .constant value⟩, ⟨c₃, .ret⟩])
    {cpu : Cpu} (hrom : cpu.rom = image.rom) (hpc : cpu.pc = .ofNat (program.start 0))
    (hsp : cpu.ram.pointer .sp = 256) (hroom : cpu.ram.hasRoom 5) :
    ∃ entered last final, program.Executes 0 cpu entered ∧
      program.Balanced [entered.ram.pointer .lcl] 1 entered 3 last ∧
      last.ram.hasTop ∧ last.ram.top = value ∧ program.Executes 3 last final := by
  have hcall : program.commands[0]? = some ⟨c₀, .call name 0⟩ := by rw [hcommands]; rfl
  have hfunction : program.commands[1]? = some ⟨c₁, .function name 0⟩ := by rw [hcommands]; rfl
  have hpush : program.commands[1 + 1]? = some ⟨c₂, .push .constant value⟩ := by rw [hcommands]; rfl
  have hret : program.commands[1 + 2]? = some ⟨c₃, .ret⟩ := by rw [hcommands]; rfl
  have hdeclared : program.declaration? name = some 1 := by
    simp [declaration?, hcommands, Placed.declared?, List.findIdx?_cons]
  obtain ⟨entered, henters, hat, hentered⟩ :=
    exists_executes_call himage hrom hcall hdeclared hroom hpc
  obtain ⟨hsp', hlcl, -⟩ :=
    Memory.pointers_pushFrame cpu.ram (.ofNat (program.start (0 + 1))) 0
  rw [← hentered, hsp] at hsp'
  have hframes : ∀ frame ∈ [cpu.ram.pointer .sp + 5],
      21 ≤ frame.toNat ∧ frame.toNat ≤ (entered.ram.pointer .sp).toNat := by
    rw [hsp', hsp]
    decide
  have hcell : Memory.isStackCell (entered.ram.pointer .sp) = true := by
    rw [hsp']
    decide
  rw [← hlcl, ← hentered] at hframes
  obtain ⟨last, hbody, hat', hlast⟩ := exists_balanced_function himage hat hfunction hpush hcell hframes
  have hplace : last.ram.pointer .sp - 1 = entered.ram.pointer .sp := by
    rw [hlast, Memory.pointer_sp_push, UInt16.add_sub_cancel]
  have htop : last.ram.hasTop := by
    rw [Memory.hasTop, hplace]
    exact hcell
  have hkeeps : Keeps [cpu.ram.pointer .sp + 5]
      (cpu.ram.pushFrame (.ofNat (program.start (0 + 1))) 0) last.ram := by
    rw [← hlcl, ← hentered, hlast]
    exact .push value hcell hframes
  obtain ⟨hframe, hback⟩ := hasFrame_of_keeps hroom (by rw [hsp]; decide) hkeeps
  obtain ⟨hlastrom, hlastpc⟩ := (at_onward_iff himage).1 hat'
  obtain ⟨final, hreturns, -⟩ :=
    exists_executes_ret himage hlastrom hret htop hframe hback hlastpc
  refine ⟨entered, last, final, henters, hbody, htop, ?_, hreturns⟩
  rw [Memory.top, hplace, hlast, Memory.read_push_self hcell]

theorem exists_balanced_of_units {config : Config} {units : List SourceUnit} {listing : Listing}
    {code : MachineCode} {name : String} {value : Word} {c₀ c₁ c₂ c₃ : Context}
    (hbootstrap : config.bootstrap = false) (hlower : lower config units = .ok listing)
    (hcode : assemble listing.toText = .ok code)
    (hcommands : (Program.ofUnits config units).commands = [⟨c₀, .call name 0⟩,
      ⟨c₁, .function name 0⟩, ⟨c₂, .push .constant value⟩, ⟨c₃, .ret⟩])
    (hsp : ((Cpu.load code).setRam 0 256).ram.pointer .sp = 256)
    (hroom : ((Cpu.load code).setRam 0 256).ram.hasRoom 5) :
    ∃ entered last final,
      (Program.ofUnits config units).Executes 0 ((Cpu.load code).setRam 0 256) entered ∧
      (Program.ofUnits config units).Balanced [entered.ram.pointer .lcl] 1 entered 3 last ∧
      last.ram.hasTop ∧ last.ram.top = value ∧
      (Program.ofUnits config units).Executes 3 last final := by
  obtain ⟨-, image, himage, hrom, -⟩ := exists_image_of_units hlower hcode
  refine Program.exists_balanced_call himage hcommands hrom.symm ?_ hsp hroom
  simp [Program.start, Program.before, Program.prologue, Program.ofUnits, hbootstrap, Cpu.setRam,
    Cpu.load]

/-- After a call, a balanced run and the matching return, the computer is behind the call. The
returned word is on top of the stack, in place of the arguments, and the pointers are those before
the call. -/
theorem call_returns {config : Config} {units : List SourceUnit} {listing : Listing}
    {code : MachineCode} (hlower : lower config units = .ok listing)
    (hcode : assemble listing.toText = .ok code)
    (hclosed : ∀ placed ∈ (Program.ofUnits config units).commands, ∀ name args,
      placed.command = .call name args →
        ∃ other ∈ (Program.ofUnits config units).commands, other.declared? = some name)
    {k j r : Nat} {context context' : Context} {name : String} {args : Word}
    {cpu entered last final : Cpu} (hrom : cpu.rom = code.words)
    (hcall : (Program.ofUnits config units).commands[k]? = some ⟨context, .call name args⟩)
    (hargs : 16 + args.toNat ≤ (cpu.ram.pointer .sp).toNat) (hroom : cpu.ram.hasRoom 5)
    (henters : (Program.ofUnits config units).Executes k cpu entered)
    (hbody : (Program.ofUnits config units).Balanced [entered.ram.pointer .lcl] j entered r last)
    (hret : (Program.ofUnits config units).commands[r]? = some ⟨context', .ret⟩)
    (htop : last.ram.hasTop) (hreturns : (Program.ofUnits config units).Executes r last final) :
    final.pc = .ofNat ((Program.ofUnits config units).start (k + 1)) ∧
      final.ram.pointer .sp = cpu.ram.pointer .sp - args + 1 ∧
      final.ram.read (cpu.ram.pointer .sp - args) = last.ram.top ∧
      ∀ p ≠ Pointer.sp, final.ram.pointer p = cpu.ram.pointer p := by
  obtain ⟨-, image, himage, hwords, -⟩ := exists_image_of_units hlower hcode
  rw [← hwords] at hrom
  obtain ⟨_, hdeclared⟩ :=
    Program.exists_declaration? (hclosed _ (List.mem_of_getElem? hcall) name args rfl)
  have hentered := henters.call himage hrom hcall hdeclared hroom
  obtain ⟨-, hlcl, -⟩ := Memory.pointers_pushFrame cpu.ram
    (.ofNat ((Program.ofUnits config units).start (k + 1))) args
  rw [← hentered] at hlcl
  obtain ⟨-, hge⟩ := toNat_frame_of_hasRoom hroom
  have hbelow : AreBelow [entered.ram.pointer .lcl] entered.ram := by
    rw [← hlcl] at hge
    exact ⟨hge, List.forall_mem_singleton.2 ⟨hge, Nat.le_refl _⟩⟩
  have hkeeps := hbody.keeps himage hclosed (henters.rom_eq.trans hrom) hbelow
  have hlast : last.rom = image.rom := by
    rw [hbody.rom_eq, henters.rom_eq, hrom]
  obtain ⟨hpc, hreturned⟩ := henters.returns himage hrom hcall hdeclared hroom hargs hkeeps hlast
    hret htop hreturns
  refine ⟨hpc, hreturned.sp, hreturned.top, fun p hp => hreturned.pointers p ?_⟩
  cases p with
  | sp => exact absurd rfl hp
  | _ => decide

/-- A function without arguments and locals that returns seven, called with an empty stack. -/
theorem call_returns_seven :
    ∃ listing code,
      lower {} [⟨"Main", "call Main.f 0\nfunction Main.f 0\npush constant 7\nreturn"⟩] =
        .ok listing ∧
      assemble listing.toText = .ok code ∧
      ∃ entered last final,
        (Program.ofUnits {}
          [⟨"Main", "call Main.f 0\nfunction Main.f 0\npush constant 7\nreturn"⟩]).Executes 0
            ((Cpu.load code).setRam 0 256) entered ∧
        (Program.ofUnits {}
          [⟨"Main", "call Main.f 0\nfunction Main.f 0\npush constant 7\nreturn"⟩]).Executes 3
            last final ∧
        final.ram.read 0 = 257 ∧ final.ram.read 256 = 7 := by
  obtain ⟨listing, code, hlower, hcode⟩ := exists_code_of_fits {}
    [⟨"Main", "call Main.f 0\nfunction Main.f 0\npush constant 7\nreturn"⟩]
    (by decide) (by decide +kernel) (by decide +kernel)
  have hcommands : (Program.ofUnits {}
      [⟨"Main", "call Main.f 0\nfunction Main.f 0\npush constant 7\nreturn"⟩]).commands =
      [⟨⟨"Main", none, 0⟩, .call "Main.f" 0⟩, ⟨⟨"Main", none, 1⟩, .function "Main.f" 0⟩,
        ⟨⟨"Main", some "Main.f", 2⟩, .push .constant 7⟩, ⟨⟨"Main", some "Main.f", 2⟩, .ret⟩] := by
    decide +kernel
  generalize [SourceUnit.mk "Main" "call Main.f 0\nfunction Main.f 0\npush constant 7\nreturn"] =
    units at hlower hcommands ⊢
  have hcall : (Program.ofUnits {} units).commands[0]? =
      some ⟨⟨"Main", none, 0⟩, .call "Main.f" 0⟩ := by rw [hcommands]; rfl
  have hret : (Program.ofUnits {} units).commands[3]? =
      some ⟨⟨"Main", some "Main.f", 2⟩, .ret⟩ := by rw [hcommands]; rfl
  have hclosed : ∀ placed ∈ (Program.ofUnits {} units).commands, ∀ name args,
      placed.command = .call name args →
        ∃ other ∈ (Program.ofUnits {} units).commands, other.declared? = some name := by
    rw [hcommands]
    simp [Placed.declared?]
  have hsp : ((Cpu.load code).setRam 0 256).ram.pointer .sp = 256 :=
    Memory.read_write_self (by decide) _ _
  have hroom : ((Cpu.load code).setRam 0 256).ram.hasRoom 5 := by
    intro i hi
    rw [hsp]
    revert i
    decide
  obtain ⟨entered, last, final, henters, hbody, htop, hword, hreturns⟩ :=
    exists_balanced_of_units rfl hlower hcode hcommands hsp hroom
  obtain ⟨-, hsp', htop', -⟩ := call_returns hlower hcode hclosed rfl hcall (by rw [hsp]; decide)
    hroom henters hbody hret htop hreturns
  rw [hsp] at hsp' htop'
  exact ⟨listing, code, hlower, hcode, entered, last, final, henters, hreturns, hsp',
    htop'.trans hword⟩

end HackToolchain
