import HackToolchain.Proofs.Lowering.Blocks
import HackToolchain.Proofs.Vm.Frame

/-!
# Calls and their returns

A run is balanced when every call in it is matched by its own return, to any depth. What a frame
needs to be taken down again is kept by a balanced run: other blocks keep it by assumption, and an
inner call builds its frame above it and puts the returned word above it. So the matching return
finds the frame that its call has built, and the caller goes on with its own pointers and the
returned word.
-/

namespace HackToolchain

def Vm.Command.isPlain : Command → Bool
  | .call .. | .ret => false
  | _ => true

namespace Lowering

open Vm Machine
open Assembly hiding Fault

/-- `LCL`, `ARG` and the words below the addresses of frames are the same. -/
structure Keeps (frames : List Word) (ram ram' : Memory) : Prop where
  lcl : ram'.pointer .lcl = ram.pointer .lcl
  arg : ram'.pointer .arg = ram.pointer .arg
  frame : ∀ frame ∈ frames, ∀ i < 5,
    ram'.read (frame - .ofNat (i + 1)) = ram.read (frame - .ofNat (i + 1))

namespace Keeps

variable {frames : List Word} {ram ram' ram'' : Memory}

theorem refl (frames : List Word) (ram : Memory) : Keeps frames ram ram :=
  ⟨rfl, rfl, fun _ _ _ _ => rfl⟩

theorem trans (h : Keeps frames ram ram') (h' : Keeps frames ram' ram'') :
    Keeps frames ram ram'' :=
  ⟨h'.lcl.trans h.lcl, h'.arg.trans h.arg, fun frame hframe i hi =>
    (h'.frame frame hframe i hi).trans (h.frame frame hframe i hi)⟩

theorem mono {frames' : List Word} (h : Keeps frames ram ram')
    (hframes : ∀ frame ∈ frames', frame ∈ frames) : Keeps frames' ram ram' :=
  ⟨h.lcl, h.arg, fun frame hframe => h.frame frame (hframes frame hframe)⟩

end Keeps

/-- Frames that lie in the stack, at `LCL` or below. -/
structure AreBelow (frames : List Word) (ram : Memory) : Prop where
  lcl : 21 ≤ (ram.pointer .lcl).toNat
  frame : ∀ frame ∈ frames, 21 ≤ frame.toNat ∧ frame.toNat ≤ (ram.pointer .lcl).toNat

theorem AreBelow.congr {frames : List Word} {ram ram' : Memory} (h : AreBelow frames ram)
    (hlcl : ram'.pointer .lcl = ram.pointer .lcl) : AreBelow frames ram' := by
  constructor
  · rw [hlcl]
    exact h.lcl
  · rw [hlcl]
    exact h.frame

theorem toNat_frame {frame : Word} (h : 21 ≤ frame.toNat) {i : Nat} (hi : i < 5) :
    (frame - .ofNat (i + 1)).toNat = frame.toNat - (i + 1) := by
  have hsize : i + 1 < UInt16.size := Nat.lt_trans (Nat.succ_lt_succ hi) (by decide)
  have hle : UInt16.ofNat (i + 1) ≤ frame := by
    rw [UInt16.le_iff_toNat_le, UInt16.toNat_ofNat_of_lt' hsize]
    omega
  rw [UInt16.toNat_sub_of_le _ _ hle, UInt16.toNat_ofNat_of_lt' hsize]

theorem Keeps.push {frames : List Word} {ram : Memory} (value : Word)
    (hcell : Memory.isStackCell (ram.pointer .sp) = true)
    (hframes : ∀ frame ∈ frames, 21 ≤ frame.toNat ∧ frame.toNat ≤ (ram.pointer .sp).toNat) :
    Keeps frames ram (ram.push value) := by
  refine ⟨Memory.pointer_push_of_ne hcell _ (by decide),
    Memory.pointer_push_of_ne hcell _ (by decide), fun frame hframe i hi => ?_⟩
  obtain ⟨hge, hle⟩ := hframes frame hframe
  have hplace := toNat_frame hge hi
  apply Memory.read_push_of_ne
  · intro heq
    rw [heq, show (Pointer.sp.address : Word).toNat = 0 from rfl] at hplace
    omega
  · intro heq
    rw [heq] at hplace
    omega

/-- What a matching return does: the caller has its pointers back, and the word that was on top of
the stack in place of the arguments. No other stack cell is changed. -/
structure Returns (args : Word) (caller last final : Memory) : Prop where
  sp : final.pointer .sp = caller.pointer .sp - args + 1
  top : final.read (caller.pointer .sp - args) = last.top
  pointers : ∀ p ∈ savedPointers, final.pointer p = caller.pointer p
  others : ∀ address, Memory.isStackCell address = true → address ≠ caller.pointer .sp - args →
    final.read address = last.read address

theorem toNat_arg {sp args : Word} (h : args.toNat ≤ sp.toNat) :
    (sp - args).toNat = sp.toNat - args.toNat :=
  UInt16.toNat_sub_of_le _ _ (UInt16.le_iff_toNat_le.2 h)

/-- The scratch cells do not matter to what a return does. -/
theorem Returns.congr {args : Word} {caller last final final' : Memory}
    (h : Returns args caller last final) (hagrees : final'.Agrees final)
    (harg : Memory.isStackCell (caller.pointer .sp - args) = true) :
    Returns args caller last final' := by
  refine ⟨(hagrees.pointer .sp).trans h.sp, ?_,
    fun p hp => (hagrees.pointer p).trans (h.pointers p hp), fun address haddress hne => ?_⟩
  · rw [hagrees _ (Memory.isScratch_of_isStackCell harg), h.top]
  · rw [hagrees _ (Memory.isScratch_of_isStackCell haddress), h.others address haddress hne]

section Return

variable {caller last final : Memory} {back args : Word} (hroom : caller.hasRoom 5)
  (hargs : 16 + args.toNat ≤ (caller.pointer .sp).toNat)
include hroom

theorem toNat_frame_of_hasRoom :
    (caller.pointer .sp + 5).toNat = (caller.pointer .sp).toNat + 5 ∧
      21 ≤ (caller.pointer .sp + 5).toNat := by
  obtain ⟨hge, hlt⟩ := Memory.toNat_of_hasRoom hroom (by decide)
  have hfive : (5 : Word).toNat = 5 := rfl
  rw [UInt16.toNat_add, hfive]
  omega

include hargs

theorem isStackCell_arg : Memory.isStackCell (caller.pointer .sp - args) = true := by
  obtain ⟨-, hlt⟩ := Memory.toNat_of_hasRoom hroom (by decide)
  rw [Memory.isStackCell_iff, toNat_arg (by omega)]
  omega

variable (hkeeps : Keeps [caller.pointer .sp + 5] (caller.pushFrame back args) last)
include hkeeps

/-- The words of a frame that was kept are in stack cells, and those for the pointers are not where
the returned word goes. -/
theorem frame_of_keeps {i : Nat} (hi : i < 5) :
    Memory.isStackCell (last.pointer .lcl - .ofNat (i + 1)) = true ∧
      (i < 4 → last.pointer .lcl - .ofNat (i + 1) ≠ last.pointer .arg) := by
  obtain ⟨-, hlcl, harg⟩ := Memory.pointers_pushFrame caller back args
  obtain ⟨hge, hlt⟩ := Memory.toNat_of_hasRoom hroom (by decide)
  obtain ⟨hframe, hframe'⟩ := toNat_frame_of_hasRoom hroom
  have hcell := toNat_frame hframe' hi
  rw [hkeeps.lcl, hkeeps.arg, hlcl, harg, Memory.isStackCell_iff]
  refine ⟨by omega, fun hi heq => ?_⟩
  have harg := toNat_arg (show args.toNat ≤ (caller.pointer .sp).toNat by omega)
  rw [← heq] at harg
  omega

theorem hasFrame_of_keeps : last.hasFrame ∧ last.returnAddress = back := by
  obtain ⟨-, hlcl, harg⟩ := Memory.pointers_pushFrame caller back args
  have hcell := isStackCell_arg hroom hargs
  refine ⟨⟨?_, fun i hi => ?_⟩, ?_⟩
  · rw [hkeeps.arg, harg]
    exact Memory.isUsable_of_isStackCell hcell
  · exact Memory.isUsable_of_isStackCell (frame_of_keeps hroom hargs hkeeps hi).1
  · have hread := hkeeps.frame _ List.mem_cons_self 4 (by decide)
    rw [Memory.returnAddress, hkeeps.lcl, hlcl]
    exact hread.trans (Memory.savesFrame_pushFrame hroom back args).back

/-- Taking down a frame that was kept undoes the call. -/
theorem returns_popFrame : Returns args caller last last.popFrame := by
  obtain ⟨-, hlcl, harg⟩ := Memory.pointers_pushFrame caller back args
  have hlcl : last.pointer .lcl = caller.pointer .sp + 5 := hkeeps.lcl.trans hlcl
  have harg : last.pointer .arg = caller.pointer .sp - args := hkeeps.arg.trans harg
  have hcell : Memory.isStackCell (last.pointer .arg) = true := harg ▸ isStackCell_arg hroom hargs
  obtain ⟨hsp, htop⟩ := Memory.top_popFrame hcell
  refine ⟨harg ▸ hsp, harg ▸ htop, fun p hp => ?_, fun address haddress hne => ?_⟩
  · obtain ⟨i, hi, hplace⟩ := List.getElem_of_mem (List.mem_reverse.2 hp)
    have hplace := (List.getElem?_eq_getElem hi).trans (congrArg some hplace)
    have hi : i < 4 := hi
    have hread := hkeeps.frame _ List.mem_cons_self i (Nat.lt_succ_of_lt hi)
    rw [Memory.pointer_popFrame (fun j hj => ?_) hplace, hlcl, hread]
    · exact (Memory.savesFrame_pushFrame hroom back args).pointers i p hplace
    · obtain ⟨hstack, hother⟩ := frame_of_keeps hroom hargs hkeeps (Nat.lt_succ_of_lt hj)
      exact ⟨hstack, hother hj⟩
  · exact Memory.read_popFrame_of_ne haddress (harg ▸ hne)

omit hkeeps hargs in
theorem Returns.keeps {frames : List Word} {final : Memory}
    (harguments : (caller.pointer .lcl).toNat + args.toNat ≤ (caller.pointer .sp).toNat)
    (hbelow : AreBelow frames caller) (hkeeps : Keeps frames (caller.pushFrame back args) last)
    (hreturns : Returns args caller last final) : Keeps frames caller final := by
  refine ⟨hreturns.pointers .lcl (by decide), hreturns.pointers .arg (by decide),
    fun frame hframe i hi => ?_⟩
  obtain ⟨hge, hle⟩ := hbelow.frame frame hframe
  obtain ⟨-, hlt⟩ := Memory.toNat_of_hasRoom hroom (by decide)
  have hplace := toNat_frame hge hi
  have harg := toNat_arg (show args.toNat ≤ (caller.pointer .sp).toNat by omega)
  have hcell : Memory.isStackCell (frame - .ofNat (i + 1)) = true := by
    rw [Memory.isStackCell_iff]
    omega
  have hne : frame - .ofNat (i + 1) ≠ caller.pointer .sp - args := by
    intro heq
    rw [heq] at hplace
    omega
  rw [hreturns.others _ hcell hne, hkeeps.frame frame hframe i hi,
    Memory.read_pushFrame_of_lt hroom _ _ hcell (by omega)]

end Return

namespace Program

variable {program : Program} {image : Image}

section Blocks

variable (himage : image.statements = program.statements) {cpu final : Cpu} {k : Nat}
  {context : Context} (hrom : cpu.rom = image.rom)
include himage hrom

/-- The block of a call builds the frame that comes back to the next command. -/
theorem exists_executes_call {name : String} {args : Word} {j : Nat}
    (hplaced : program.commands[k]? = some ⟨context, .call name args⟩)
    (hdeclared : program.declaration? name = some j) (hroom : cpu.ram.hasRoom 5)
    (hpc : cpu.pc = .ofNat (program.start k)) :
    ∃ final, program.Executes k cpu final ∧ image.At (program.onward j) final ∧
      final.ram = cpu.ram.pushFrame (.ofNat (program.start (k + 1))) args := by
  have hroom : cpu.core.ram.hasRoom 5 := hroom
  obtain ⟨d, hexec⟩ :=
    exec?_callHead image (name ++ "$$ret." ++ toString context.nextId) name args hroom
  rw [address_back himage hplaced] at hexec
  let built : Core :=
    ⟨image.address name, d, cpu.ram.pushFrame (.ofNat (program.start (k + 1))) args⟩
  have hlocates : image.Locates built.a (program.onward j) := locates_declaration? himage hdeclared
  have hjump := Image.leads_jump Status.isAny hlocates
  obtain ⟨final, hexecutes, hat, hcore⟩ := exists_executes_of_jump himage
    ((at_onward_iff himage).2 ⟨hrom, hpc⟩) hplaced hexec (callBlock_eq _ _ _) (hjump _)
  exact ⟨final, hexecutes, hat, congrArg Core.ram hcore⟩

theorem Executes.call {name : String} {args : Word} {j : Nat}
    (hplaced : program.commands[k]? = some ⟨context, .call name args⟩)
    (hdeclared : program.declaration? name = some j) (hroom : cpu.ram.hasRoom 5)
    (h : program.Executes k cpu final) :
    final.ram = cpu.ram.pushFrame (.ofNat (program.start (k + 1))) args := by
  obtain ⟨final', hexecutes, -, hram⟩ :=
    exists_executes_call himage hrom hplaced hdeclared hroom h.start
  rw [h.unique hexecutes, hram]

theorem exists_executes_ret {l : Nat} (hplaced : program.commands[k]? = some ⟨context, .ret⟩)
    (htop : cpu.ram.hasTop) (hframe : cpu.ram.hasFrame)
    (hback : cpu.ram.returnAddress = .ofNat (program.start l))
    (hpc : cpu.pc = .ofNat (program.start k)) :
    ∃ final, program.Executes k cpu final ∧ image.At (program.onward l) final ∧
      final.ram.Agrees cpu.ram.popFrame := by
  have htop : cpu.core.ram.hasTop := htop
  obtain ⟨next, hexec, ha, hagrees⟩ := exists_exec?_returnHead image htop hframe
  have hlocates : image.Locates next.a (program.onward l) := by
    rw [ha, locates_onward_iff himage]
    exact hback
  have hjump := Image.leads_jump Status.isAny hlocates
  obtain ⟨final, hexecutes, hat, rfl⟩ := exists_executes_of_jump himage
    ((at_onward_iff himage).2 ⟨hrom, hpc⟩) hplaced hexec returnBlock_eq (hjump _)
  exact ⟨final, hexecutes, hat, hagrees⟩

theorem Executes.ret {l : Nat} (hplaced : program.commands[k]? = some ⟨context, .ret⟩)
    (htop : cpu.ram.hasTop) (hframe : cpu.ram.hasFrame)
    (hback : cpu.ram.returnAddress = .ofNat (program.start l)) (h : program.Executes k cpu final) :
    final.pc = .ofNat (program.start l) ∧ final.ram.Agrees cpu.ram.popFrame := by
  obtain ⟨final', hexecutes, hat, hagrees⟩ :=
    exists_executes_ret himage hrom hplaced htop hframe hback h.start
  rw [h.unique hexecutes]
  exact ⟨((at_onward_iff himage).1 hat).2, hagrees⟩

/-- A return that finds the frame of a call goes back to the caller. -/
theorem Executes.returns {entered last mid : Cpu} {context' : Context} {name : String} {args : Word}
    {j r : Nat} (hcall : program.commands[k]? = some ⟨context, .call name args⟩)
    (hdeclared : program.declaration? name = some j) (hroom : cpu.ram.hasRoom 5)
    (hargs : 16 + args.toNat ≤ (cpu.ram.pointer .sp).toNat)
    (henters : program.Executes k cpu entered)
    (hkeeps : Keeps [entered.ram.pointer .lcl] entered.ram last.ram) (hlast : last.rom = image.rom)
    (hret : program.commands[r]? = some ⟨context', .ret⟩) (htop : last.ram.hasTop)
    (hreturns : program.Executes r last mid) :
    mid.pc = .ofNat (program.start (k + 1)) ∧ Returns args cpu.ram last.ram mid.ram := by
  have hentered := henters.call himage hrom hcall hdeclared hroom
  obtain ⟨-, hlcl, -⟩ :=
    Memory.pointers_pushFrame cpu.ram (.ofNat (program.start (k + 1))) args
  rw [hentered, hlcl] at hkeeps
  obtain ⟨hframe, hback⟩ := hasFrame_of_keeps hroom hargs hkeeps
  obtain ⟨hpc, hagrees⟩ := hreturns.ret himage hlast hret htop hframe hback
  exact ⟨hpc, (returns_popFrame hroom hargs hkeeps).congr hagrees (isStackCell_arg hroom hargs)⟩

end Blocks

/-- A run of whole blocks in which every call is matched by its own return. `frames` are the
addresses of the frames that were built and not yet taken down. Blocks other than calls and returns
keep them, `LCL` and `ARG`; a call pushes into stack cells, with its arguments above the caller's
frame; and a return finds the returned word in a stack cell. -/
inductive Balanced (program : Program) : List Word → Nat → Cpu → Nat → Cpu → Prop
  | refl (frames : List Word) (k : Nat) (cpu : Cpu) : Balanced program frames k cpu k cpu
  | block {frames : List Word} {k j l : Nat} {placed : Placed} {cpu mid final : Cpu}
      (placed_eq : program.commands[k]? = some placed)
      (plain : placed.command.isPlain = true)
      (executes : program.Executes k cpu mid) (keeps : Keeps frames cpu.ram mid.ram)
      (pc : mid.pc = .ofNat (program.start j)) (rest : Balanced program frames j mid l final) :
      Balanced program frames k cpu l final
  | call {frames : List Word} {k j r i l : Nat} {context context' : Context} {name : String}
      {args : Word} {cpu entered last mid final : Cpu}
      (call_eq : program.commands[k]? = some ⟨context, .call name args⟩)
      (enters : program.Executes k cpu entered) (room : cpu.ram.hasRoom 5)
      (arguments : (cpu.ram.pointer .lcl).toNat + args.toNat ≤ (cpu.ram.pointer .sp).toNat)
      (entered_pc : entered.pc = .ofNat (program.start j))
      (body : Balanced program (entered.ram.pointer .lcl :: frames) j entered r last)
      (ret_eq : program.commands[r]? = some ⟨context', .ret⟩) (top : last.ram.hasTop)
      (returns : program.Executes r last mid) (pc : mid.pc = .ofNat (program.start i))
      (rest : Balanced program frames i mid l final) : Balanced program frames k cpu l final

namespace Balanced

variable {frames : List Word} {k l : Nat} {cpu final : Cpu}

theorem rom_eq (h : program.Balanced frames k cpu l final) : final.rom = cpu.rom := by
  induction h with
  | refl => rfl
  | block _ _ hexecutes _ _ _ ih => rw [ih, hexecutes.rom_eq]
  | call _ henters _ _ _ _ _ _ hreturns _ _ ihbody ihrest =>
      rw [ihrest, hreturns.rom_eq, ihbody, henters.rom_eq]

/-- A balanced run keeps the frames below it. -/
theorem keeps (himage : image.statements = program.statements)
    (hclosed : ∀ placed ∈ program.commands, ∀ name args, placed.command = .call name args →
      ∃ other ∈ program.commands, other.declared? = some name)
    (h : program.Balanced frames k cpu l final) (hrom : cpu.rom = image.rom)
    (hbelow : AreBelow frames cpu.ram) : Keeps frames cpu.ram final.ram := by
  induction h with
  | refl => exact .refl _ _
  | block _ _ hexecutes hkeeps _ _ ih =>
      exact hkeeps.trans (ih (hexecutes.rom_eq.trans hrom) (hbelow.congr hkeeps.lcl))
  | @call frames k j r i l context context' name args cpu entered last mid final hcall henters hroom
      hargs _ hbody hret htop hreturns _ _ ihbody ihrest =>
      obtain ⟨_, hdeclared⟩ :=
        exists_declaration? (hclosed _ (List.mem_of_getElem? hcall) name args rfl)
      have hentered := henters.call himage hrom hcall hdeclared hroom
      obtain ⟨-, hlcl, -⟩ :=
        Memory.pointers_pushFrame cpu.ram (.ofNat (program.start (k + 1))) args
      rw [← hentered] at hlcl
      obtain ⟨hnat, hge⟩ := toNat_frame_of_hasRoom hroom
      have hlow := hbelow.lcl
      -- the new frame is above those that the run has to keep
      have hkeeps := ihbody (henters.rom_eq.trans hrom) <| by
        rw [hlcl]
        refine ⟨hlcl ▸ hge, List.forall_mem_cons.2
          ⟨⟨hge, hlcl ▸ Nat.le_refl _⟩, fun frame hframe => ?_⟩⟩
        obtain ⟨hframe, hle⟩ := hbelow.frame frame hframe
        rw [hlcl]
        omega
      have hlast : last.rom = image.rom := by
        rw [hbody.rom_eq, henters.rom_eq, hrom]
      have hown := hkeeps.mono (List.forall_mem_singleton.2 List.mem_cons_self)
      obtain ⟨-, hreturned⟩ := henters.returns himage hrom hcall hdeclared hroom (by omega) hown
        hlast hret htop hreturns
      have hothers := hkeeps.mono fun frame => List.mem_cons_of_mem _
      have hmid := hreturned.keeps hroom hargs hbelow (hentered ▸ hothers)
      refine hmid.trans (ihrest ?_ (hbelow.congr hmid.lcl))
      rw [hreturns.rom_eq, hlast]

end Balanced

end Program

end Lowering

end HackToolchain
