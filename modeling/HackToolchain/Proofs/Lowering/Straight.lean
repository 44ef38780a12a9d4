import HackToolchain.Proofs.Assembly.Within
import HackToolchain.Proofs.Lowering.Emitter
import HackToolchain.Proofs.Vm.Scratch

/-!
# Blocks without jumps

What the building blocks of generated code do to a core in any image, and the blocks of the commands
that are made of them alone: all pushes and pops, and the operators that do not compare.
-/

namespace HackToolchain

namespace Lowering

open Vm Machine
open Assembly hiding Fault

variable {image : Image} {core : Core} {rest : Block}

theorem address_pointer (p : Pointer) : image.address p.symbol = p.address := by
  apply image.address_of_predefined
  cases p <;> decide

theorem address_scratch : image.address MemoryMap.scratch = 13 :=
  image.address_of_predefined (by decide)

theorem address_secondScratch : image.address MemoryMap.secondScratch = 14 :=
  image.address_of_predefined (by decide)

@[simp] theorem exec?_load (symbol : String) :
    image.exec? (load symbol :: rest) core =
      image.exec? rest { core with a := image.address symbol } := rfl

@[simp] theorem exec?_loadNumber (value : Word) :
    image.exec? (loadNumber value :: rest) core = image.exec? rest { core with a := value } := rfl

@[simp] theorem exec?_loadPointer (p : Pointer) :
    image.exec? (loadPointer p :: rest) core = image.exec? rest { core with a := p.address } := by
  rw [loadPointer, exec?_load, address_pointer]

@[simp] theorem exec?_setA {comp : Comp}
    (h : comp.readsMemory = false ∨ Memory.contains core.a = true) :
    image.exec? (setA comp :: rest) core = image.exec? rest { core with a := core.out comp } :=
  Image.exec?_assign fun hcomp => h.resolve_left (by simpa using hcomp)

@[simp] theorem exec?_setD {comp : Comp}
    (h : comp.readsMemory = false ∨ Memory.contains core.a = true) :
    image.exec? (setD comp :: rest) core = image.exec? rest { core with d := core.out comp } :=
  Image.exec?_assign fun hcomp => h.resolve_left (by simpa using hcomp)

@[simp] theorem exec?_setM {comp : Comp} (h : Memory.contains core.a = true) :
    image.exec? (setM comp :: rest) core =
      image.exec? rest { core with ram := core.ram.write core.a (core.out comp) } :=
  Image.exec?_assign fun _ => h

@[simp] theorem exec?_setAM {comp : Comp} (h : Memory.contains core.a = true) :
    image.exec? (setAM comp :: rest) core =
      image.exec? rest ⟨core.out comp, core.d, core.ram.write core.a (core.out comp)⟩ :=
  Image.exec?_assign fun _ => h

@[simp] theorem exec?_setMD {comp : Comp} (h : Memory.contains core.a = true) :
    image.exec? (setMD comp :: rest) core =
      image.exec? rest ⟨core.a, core.out comp, core.ram.write core.a (core.out comp)⟩ :=
  Image.exec?_assign fun _ => h

theorem exec?_pushD (h : Memory.isStackCell (core.ram.pointer .sp) = true) :
    image.exec? pushD core = some ⟨Pointer.sp.address, core.d, core.ram.push core.d⟩ := by
  have hcell := Memory.contains_of_isStackCell h
  have hsp := Memory.pointer_write_of_isStackCell h core.ram core.d .sp
  simp [pushD, hcell, hsp, Core.out, Core.source, Comp.value, Comp.readsMemory, Memory.push]

theorem exec?_popD (h : core.ram.hasTop) :
    image.exec? popD core = some ⟨core.ram.pointer .sp - 1, core.ram.top, core.ram.drop⟩ := by
  have hcell := Memory.contains_of_isStackCell h
  have htop := Memory.read_setPointer_of_isStackCell h core.ram .sp (core.ram.pointer .sp - 1)
  simp [popD, hcell, htop, Core.out, Core.source, Comp.value, Comp.readsMemory, Memory.top,
    Memory.drop]

theorem exec?_replaceTop {comp : Comp} (h : core.ram.hasTop) :
    image.exec? (replaceTop comp) core =
      some ⟨core.ram.pointer .sp - 1, core.d, core.ram.replaceTop
        (Core.out ⟨core.ram.pointer .sp - 1, core.d, core.ram⟩ comp)⟩ := by
  have hcell := Memory.contains_of_isStackCell h
  rw [replaceTop, exec?_loadPointer, exec?_setA (.inr (Memory.contains_pointer .sp))]
  exact exec?_setM hcell

theorem exec?_combine {comp : Comp} (hcomp : comp.readsMemory = true) (h : core.ram.hasTop)
    (hsecond : core.ram.drop.hasTop) :
    image.exec? (combine comp) core =
      some ⟨core.ram.drop.pointer .sp - 1, core.ram.top,
        core.ram.drop.replaceTop (comp.value core.ram.top core.ram.drop.top)⟩ := by
  have hcell := Memory.contains_of_isStackCell hsecond
  rw [Memory.pointer_sp_drop] at hcell
  have htop : core.ram.drop.top = core.ram.drop.read (core.ram.pointer .sp - 1 - 1) := by
    rw [Memory.top, Memory.pointer_sp_drop]
  rw [combine, Image.exec?_append, exec?_popD h, Option.bind_some, exec?_setA (.inl rfl),
    exec?_setM hcell, Image.exec?_nil, Memory.replaceTop, Memory.pointer_sp_drop, htop]
  simp only [Core.out, Core.source, hcomp, if_true]
  rfl

/-- The address of the static cells of a context in an image. -/
def staticCell (image : Image) (context : Context) (index : Word) : Word :=
  image.address (context.staticSymbol index)

theorem exec?_readCell (context : Context) {segment : Segment} {index : Word}
    (h : ∀ address ∈ segment.cell? (staticCell image context) core.ram index,
      Memory.contains address = true) :
    ∃ a, image.exec? (readCell context segment index) core =
      some ⟨a, segment.value (staticCell image context) core.ram index, core.ram⟩ := by
  cases hbase : segment.base with
  | constant =>
      simp [readCell, hbase, Core.out, Core.source, Comp.value, Comp.readsMemory, Segment.value,
        Segment.cell?]
  | fixed base =>
      have hcell := h (base + index) (by simp [Segment.cell?, hbase])
      simp [readCell, hbase, hcell, Core.out, Core.source, Comp.value, Comp.readsMemory,
        Segment.value, Segment.cell?]
  | static =>
      have hcell : Memory.contains (image.address (context.staticSymbol index)) = true :=
        h (staticCell image context index) (by simp [Segment.cell?, hbase])
      simp [readCell, hbase, hcell, staticCell, Core.out, Core.source, Comp.value,
        Comp.readsMemory, Segment.value, Segment.cell?]
  | pointer p =>
      have hcell := h (core.ram.pointer p + index) (by simp [Segment.cell?, hbase])
      simp [readCell, hbase, hcell, Core.out, Core.source, Comp.value, Comp.readsMemory,
        Segment.value, Segment.cell?]

theorem exec?_push (context : Context) {segment : Segment} {index : Word}
    (hroom : Memory.isStackCell (core.ram.pointer .sp) = true)
    (h : ∀ address ∈ segment.cell? (staticCell image context) core.ram index,
      Memory.contains address = true) :
    ∃ a d, image.exec? (block context (.push segment index)) core =
      some ⟨a, d, core.ram.push (segment.value (staticCell image context) core.ram index)⟩ := by
  obtain ⟨a, hread⟩ := exec?_readCell context h
  refine ⟨Pointer.sp.address, segment.value (staticCell image context) core.ram index, ?_⟩
  rw [block, Image.exec?_append, hread]
  exact exec?_pushD hroom

theorem exec?_pop (context : Context) {segment : Segment} {index : Word} (htop : core.ram.hasTop)
    (h : ∀ address ∈ segment.cell? (staticCell image context) core.ram index,
      Memory.contains address = true) :
    ∃ a d, image.exec? (block context (.pop segment index)) core = some ⟨a, d,
      (core.ram.park segment index).popInto
        (segment.cell? (staticCell image context) core.ram index)⟩ := by
  cases hbase : segment.base with
  | constant =>
      have hblock : block context (.pop segment index) = [] := by simp [block, popCell, hbase]
      have hcell : segment.cell? (staticCell image context) core.ram index = none := by
        simp [Segment.cell?, hbase]
      have hpark : core.ram.park segment index = core.ram := by simp [Memory.park, hbase]
      rw [hblock, hcell, hpark]
      exact ⟨core.a, core.d, rfl⟩
  | fixed base =>
      have hblock : block context (.pop segment index) =
          popD ++ [loadNumber (base + index), setM .d] := by simp [block, popCell, hbase]
      have hcell : segment.cell? (staticCell image context) core.ram index =
          some (base + index) := by simp [Segment.cell?, hbase]
      have hpark : core.ram.park segment index = core.ram := by simp [Memory.park, hbase]
      rw [hblock, hcell, hpark, Image.exec?_append, exec?_popD htop]
      exact ⟨_, _, exec?_setM (h _ hcell)⟩
  | static =>
      have hblock : block context (.pop segment index) =
          popD ++ [load (context.staticSymbol index), setM .d] := by simp [block, popCell, hbase]
      have hcell : segment.cell? (staticCell image context) core.ram index =
          some (staticCell image context index) := by simp [Segment.cell?, hbase]
      have hpark : core.ram.park segment index = core.ram := by simp [Memory.park, hbase]
      rw [hblock, hcell, hpark, Image.exec?_append, exec?_popD htop]
      exact ⟨_, _, exec?_setM (h _ hcell)⟩
  | pointer p =>
      have hcell : segment.cell? (staticCell image context) core.ram index =
          some (core.ram.pointer p + index) := by simp [Segment.cell?, hbase]
      have hblock : block context (.pop segment index) =
          [loadPointer p, setD (.source .m), loadNumber index, setD (.add .a),
            load MemoryMap.scratch, setM .d] ++ (popD ++
            [load MemoryMap.scratch, setA (.source .m), setM .d]) := by
        simp [block, popCell, hbase]
      have hpark : core.ram.park segment index =
          core.ram.write 13 (core.ram.pointer p + index) := by simp [Memory.park, hbase]
      have hexec : image.exec? [loadPointer p, setD (.source .m), loadNumber index, setD (.add .a),
          load MemoryMap.scratch, setM .d] core =
          some ⟨13, core.ram.pointer p + index, core.ram.park segment index⟩ := by
        rw [hpark]
        simp +decide [address_scratch, Core.out, Core.source, Comp.value, Comp.readsMemory]
      rw [hblock, hcell, Image.exec?_append, hexec, Option.bind_some, Image.exec?_append]
      -- the address is parked where no stack operation looks
      have hagrees := Memory.agrees_park core.ram segment index
      generalize core.ram.park segment index = parked at hpark hagrees
      have hscratch : parked.drop.read 13 = core.ram.pointer p + index := by
        rw [Memory.drop, Memory.setPointer, Memory.read_write_of_ne (by decide), hpark,
          Memory.read_write_self (by decide)]
      have hcell' : Memory.contains (core.ram.pointer p + index) = true := h _ hcell
      have hpop : image.exec? popD ⟨13, core.ram.pointer p + index, parked⟩ =
          some ⟨parked.pointer .sp - 1, parked.top, parked.drop⟩ :=
        exec?_popD (hagrees.hasTop.2 htop)
      refine ⟨core.ram.pointer p + index, parked.top, ?_⟩
      rw [hpop, Option.bind_some]
      simp +decide [address_scratch, hscratch, hcell', Core.out, Core.source, Comp.value,
        Comp.readsMemory, Memory.popInto]

section Leads

variable {allowed : Status → Prop} (hrun : allowed .running)
include hrun

theorem leads_push (context : Context) {segment : Segment} {index : Word}
    (hroom : Memory.isStackCell (core.ram.pointer .sp) = true)
    (h : ∀ address ∈ segment.cell? (staticCell image context) core.ram index,
      Memory.isUsable address = true) (rest : Block) :
    ∃ n ≤ 12, ∃ core', image.Leads allowed n (block context (.push segment index) ++ rest) core
      rest core' ∧
      core'.ram = core.ram.push (segment.value (staticCell image context) core.ram index) := by
  obtain ⟨a, d, hexec⟩ := exec?_push context hroom fun address haddress =>
    ((Memory.isUsable_iff address).1 (h address haddress)).1
  refine ⟨_, ?_, _, Image.leads_of_exec? hrun hexec rest, rfl⟩
  cases segment <;> exact Nat.le_of_ble_eq_true rfl

theorem leads_pop (context : Context) {segment : Segment} {index : Word} (htop : core.ram.hasTop)
    (h : ∀ address ∈ segment.cell? (staticCell image context) core.ram index,
      Memory.isUsable address = true) (rest : Block) :
    ∃ n ≤ 12, ∃ core', image.Leads allowed n (block context (.pop segment index) ++ rest) core
      rest core' ∧ core'.ram.Agrees
        (core.ram.popInto (segment.cell? (staticCell image context) core.ram index)) := by
  obtain ⟨a, d, hexec⟩ := exec?_pop context htop fun address haddress =>
    ((Memory.isUsable_iff address).1 (h address haddress)).1
  refine ⟨_, ?_, _, Image.leads_of_exec? hrun hexec rest,
    (Memory.agrees_park core.ram segment index).popInto htop _⟩
  cases segment <;> exact Nat.le_of_ble_eq_true rfl

end Leads

theorem exec?_operatorBlock (image : Image) (id : Nat) {operator : Operator}
    (h : operator.isComparison = false) (htop : core.ram.hasTop)
    (hsecond : operator.isUnary = false → core.ram.drop.hasTop) :
    ∃ a d, image.exec? (operatorBlock id operator) core =
      some ⟨a, d, core.ram.operate operator⟩ := by
  have hunary (comp : Comp) : ∃ a d, image.exec? (replaceTop comp) core =
      some ⟨a, d, core.ram.replaceTop
        (Core.out ⟨core.ram.pointer .sp - 1, core.d, core.ram⟩ comp)⟩ :=
    ⟨_, _, exec?_replaceTop htop⟩
  have hbinary (operator : Operator) (comp : Comp) (hcomp : comp.readsMemory = true)
      (hvalue : comp.value core.ram.top core.ram.drop.top =
        operator.value core.ram.drop.top core.ram.top)
      (hsecond : core.ram.drop.hasTop) : ∃ a d, image.exec? (combine comp) core =
      some ⟨a, d, core.ram.drop.replaceTop (operator.value core.ram.drop.top core.ram.top)⟩ :=
    ⟨_, _, hvalue ▸ exec?_combine hcomp htop hsecond⟩
  cases operator with
  | neg => exact hunary (.negSource .m)
  | not => exact hunary (.notSource .m)
  | sub => exact hbinary .sub (.subD .m) rfl rfl (hsecond rfl)
  | add => exact hbinary .add (.add .m) rfl (UInt16.add_comm _ _) (hsecond rfl)
  | and => exact hbinary .and (.and .m) rfl (UInt16.and_comm _ _) (hsecond rfl)
  | or => exact hbinary .or (.or .m) rfl (UInt16.or_comm _ _) (hsecond rfl)
  | eq | gt | lt => exact absurd h (by decide)

end Lowering

end HackToolchain
