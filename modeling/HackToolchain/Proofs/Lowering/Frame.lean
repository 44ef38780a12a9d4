import HackToolchain.Proofs.Lowering.Straight

/-!
# The blocks of calls and returns

Up to their last jump, the block of a call builds a frame and the block of a return takes one down.
The return address and the address of the frame are kept in scratch cells meanwhile, so the contents
of RAM agree with the effect on the frame.
-/

namespace HackToolchain

namespace Lowering

open Vm Machine
open Assembly hiding Fault

variable {image : Image} {core : Core} {allowed : Status → Prop}

theorem exists_exec?_savePointers (image : Image) (ps : List Pointer) (core : Core)
    (h : core.ram.hasRoom ps.length) :
    ∃ a d, image.exec? (ps.flatMap savePointer) core =
      some ⟨a, d, Memory.pushPointers ps core.ram⟩ := by
  induction ps generalizing core with
  | nil => exact ⟨core.a, core.d, rfl⟩
  | cons p ps ih =>
      have hcell := Memory.isStackCell_of_hasRoom h
      let saved : Core :=
        ⟨Pointer.sp.address, core.ram.pointer p, core.ram.push (core.ram.pointer p)⟩
      have hfirst : image.exec? (savePointer p) core = some saved := by
        rw [savePointer, Image.exec?_append, exec?_loadPointer,
          exec?_setD (.inr (Memory.contains_pointer p))]
        exact exec?_pushD hcell
      obtain ⟨a, d, hrest⟩ := ih saved (Memory.hasRoom_push h _)
      refine ⟨a, d, ?_⟩
      rw [List.flatMap_cons, Image.exec?_append, hfirst]
      exact hrest

def callHead (back name : String) (args : Word) : Block :=
  [load back, setD (.source .a)] ++ (pushD ++ (savedPointers.flatMap savePointer ++
    [loadPointer .sp, setD (.source .m), loadNumber 5, setD (.subSource .a), loadNumber args,
      setD (.subSource .a), loadPointer .arg, setM .d, loadPointer .sp, setD (.source .m),
      loadPointer .lcl, setM .d, load name]))

theorem callBlock_eq (id : Nat) (name : String) (args : Word) :
    callBlock id name args = callHead (name ++ "$$ret." ++ toString id) name args ++
      [jump, .label (name ++ "$$ret." ++ toString id)] := by
  simp [callBlock, callHead]

/-- Before a call jumps, it has built a frame and has the address of the function in A. -/
theorem exec?_callHead (image : Image) (back name : String) (args : Word)
    (h : core.ram.hasRoom 5) :
    ∃ d, image.exec? (callHead back name args) core =
      some ⟨image.address name, d, core.ram.pushFrame (image.address back) args⟩ := by
  have hcell : Memory.isStackCell (core.ram.pointer .sp) = true := Memory.isStackCell_of_hasRoom h
  have hpush : image.exec? pushD ⟨image.address back, image.address back, core.ram⟩ =
      some ⟨Pointer.sp.address, image.address back, core.ram.push (image.address back)⟩ :=
    exec?_pushD hcell
  obtain ⟨a, d, hsaved⟩ := exists_exec?_savePointers image savedPointers
    ⟨Pointer.sp.address, image.address back, core.ram.push (image.address back)⟩
    (Memory.hasRoom_push h _)
  have hhead : image.exec? [load back, setD (.source .a)] core =
      some ⟨image.address back, image.address back, core.ram⟩ := rfl
  rw [callHead, Image.exec?_append, hhead, Option.bind_some, Image.exec?_append, hpush,
    Option.bind_some, Image.exec?_append, hsaved, Option.bind_some, Memory.pushFrame]
  generalize Memory.pushPointers savedPointers (core.ram.push (image.address back)) = saved
  have hsp (value : Word) : (saved.setPointer .arg value).pointer .sp = saved.pointer .sp :=
    Memory.pointer_setPointer_of_ne (by decide) _ _
  refine ⟨saved.pointer .sp, ?_⟩
  simp [hsp, Core.out, Core.source, Comp.value, Comp.readsMemory]

theorem leads_callBlock (hall : ∀ status, allowed status) (id : Nat) {name : String} (args : Word)
    {rest' : Block} (hlocates : image.Locates (image.address name) rest')
    (h : core.ram.hasRoom 5) (rest : Block) :
    ∃ n core', image.Leads allowed n (callBlock id name args ++ rest) core rest' core' ∧
      core'.ram =
        core.ram.pushFrame (image.address (name ++ "$$ret." ++ toString id)) args := by
  obtain ⟨d, hexec⟩ := exec?_callHead image (name ++ "$$ret." ++ toString id) name args h
  have hhead := Image.leads_of_exec? (hall _) hexec
    ([jump, .label (name ++ "$$ret." ++ toString id)] ++ rest)
  rw [callBlock_eq, List.append_assoc]
  exact ⟨_, _, hhead.trans (Image.leads_jump hall hlocates _), rfl⟩

/-- Pointers get their words back one after another, and the return address stays where it is. -/
theorem exists_exec?_restorePointers (image : Image) (ps : List Pointer) (core : Core)
    (hcells : ∀ i < ps.length, Memory.isUsable (core.ram.read 13 - .ofNat (i + 1)) = true) :
    ∃ next, image.exec? (ps.flatMap restorePointer) core = some next ∧
      next.ram.read 14 = core.ram.read 14 ∧
      next.ram.Agrees (Memory.restore ps (core.ram.read 13) core.ram) := by
  induction ps generalizing core with
  | nil => exact ⟨core, rfl, rfl, .refl _⟩
  | cons p ps ih =>
      obtain ⟨hcontains, hscratch⟩ := (Memory.isUsable_iff _).1 (hcells 0 (Nat.succ_pos _))
      rw [show UInt16.ofNat (0 + 1) = 1 from rfl] at hcontains hscratch
      generalize haddress : core.ram.read 13 = address at *
      have hne : address - 1 ≠ 13 := by
        intro heq
        simp [heq, Memory.isScratch] at hscratch
      let next : Core := ⟨p.address, core.ram.read (address - 1),
        (core.ram.write 13 (address - 1)).setPointer p (core.ram.read (address - 1))⟩
      have hfirst : image.exec? (restorePointer p) core = some next := by
        have hread : (core.ram.write 13 (address - 1)).read (address - 1) =
            core.ram.read (address - 1) := Memory.read_write_of_ne hne _ _
        simp +decide [restorePointer, next, address_scratch, haddress, hread, hcontains, Core.out,
          Core.source, Comp.value, Comp.readsMemory]
      have haddress' : next.ram.read 13 = address - 1 := by
        rw [Memory.read_setPointer_of_isScratch (by decide), Memory.read_write_self (by decide)]
      have hback : next.ram.read 14 = core.ram.read 14 := by
        rw [Memory.read_setPointer_of_isScratch (by decide), Memory.read_write_of_ne (by decide)]
      have hagrees : next.ram.Agrees (core.ram.setPointer p (core.ram.read (address - 1))) :=
        ((Memory.Agrees.refl core.ram).write_left (by decide) _).setPointer p _
      have hrest : ∀ i < ps.length, Memory.isUsable (address - 1 - .ofNat (i + 1)) = true := by
        intro i hi
        have hcell := hcells (i + 1) (Nat.succ_lt_succ hi)
        rwa [Word.sub_ofNat_succ] at hcell
      obtain ⟨final, hexec, hback', hagrees'⟩ := ih next (haddress'.symm ▸ hrest)
      refine ⟨final, ?_, hback'.trans hback, ?_⟩
      · rw [List.flatMap_cons, Image.exec?_append, hfirst]
        exact hexec
      · rw [haddress'] at hagrees'
        exact hagrees'.trans (hagrees.restore hrest)

def returnHead : Block :=
  [loadPointer .lcl, setD (.source .m), load MemoryMap.scratch, setM .d, loadNumber 5,
    setA (.subSource .a), setD (.source .m), load MemoryMap.secondScratch, setM .d] ++ ((popD ++
    [loadPointer .arg, setA (.source .m), setM .d, loadPointer .arg, setD (.incSource .m),
      loadPointer .sp, setM .d]) ++ (savedPointers.reverse.flatMap restorePointer ++
    [load MemoryMap.secondScratch, setA (.source .m)]))

theorem returnBlock_eq : returnBlock = returnHead ++ [jump] := by
  simp [returnBlock, returnHead]

theorem exec?_parkFrame (image : Image)
    (hback : Memory.isUsable (core.ram.pointer .lcl - 5) = true) :
    image.exec? [loadPointer .lcl, setD (.source .m), load MemoryMap.scratch, setM .d,
        loadNumber 5, setA (.subSource .a), setD (.source .m), load MemoryMap.secondScratch,
        setM .d] core =
      some ⟨14, core.ram.returnAddress,
        (core.ram.write 13 (core.ram.pointer .lcl)).write 14 core.ram.returnAddress⟩ := by
  obtain ⟨hcontains, hscratch⟩ := (Memory.isUsable_iff _).1 hback
  have hread : (core.ram.write 13 (core.ram.pointer .lcl)).read (core.ram.pointer .lcl - 5) =
      core.ram.returnAddress := by
    apply Memory.read_write_of_ne
    intro heq
    simp [heq, Memory.isScratch] at hscratch
  simp +decide [address_scratch, address_secondScratch, hread, hcontains, Core.out, Core.source,
    Comp.value, Comp.readsMemory]

theorem exec?_yieldTop (image : Image) (core : Core) (htop : core.ram.hasTop)
    (harg : Memory.contains (core.ram.pointer .arg) = true) :
    ∃ a d, image.exec? (popD ++ [loadPointer .arg, setA (.source .m), setM .d, loadPointer .arg,
        setD (.incSource .m), loadPointer .sp, setM .d]) core =
      some ⟨a, d, core.ram.yieldTop⟩ := by
  have hpointer : core.ram.drop.pointer .arg = core.ram.pointer .arg :=
    Memory.pointer_drop_of_ne _ (by decide)
  rw [Image.exec?_append, exec?_popD htop, Memory.yieldTop]
  simp [hpointer, harg, Core.out, Core.source, Comp.value, Comp.readsMemory]

theorem read_yieldTop_of_isScratch {ram : Memory} {address : Word}
    (harg : Memory.isUsable (ram.pointer .arg) = true)
    (haddress : Memory.isScratch address = true) :
    ram.yieldTop.read address = ram.read address := by
  have hne : address ≠ ram.pointer .arg := by
    rintro rfl
    simp [Memory.isUsable, haddress] at harg
  rw [Memory.yieldTop, Memory.read_setPointer_of_isScratch haddress, Memory.read_write_of_ne hne,
    Memory.drop, Memory.read_setPointer_of_isScratch haddress]

/-- Before a return jumps, it has taken the frame down and has the return address in A. -/
theorem exists_exec?_returnHead (image : Image) (htop : core.ram.hasTop)
    (hframe : core.ram.hasFrame) :
    ∃ next, image.exec? returnHead core = some next ∧ next.a = core.ram.returnAddress ∧
      next.ram.Agrees core.ram.popFrame := by
  obtain ⟨harg, hcells⟩ := hframe
  let parked : Core := ⟨14, core.ram.returnAddress,
    (core.ram.write 13 (core.ram.pointer .lcl)).write 14 core.ram.returnAddress⟩
  have hpark := exec?_parkFrame image (hcells 4 (by decide))
  have hagrees : parked.ram.Agrees core.ram :=
    ((Memory.Agrees.refl core.ram).write_left (by decide) _).write_left (by decide) _
  have harg' : Memory.isUsable (parked.ram.pointer .arg) = true := by
    rw [hagrees.pointer]
    exact harg
  obtain ⟨a, d, hyield⟩ := exec?_yieldTop image parked (hagrees.hasTop.2 htop)
    ((Memory.isUsable_iff _).1 harg').1
  let yielded : Core := ⟨a, d, parked.ram.yieldTop⟩
  have hlcl : yielded.ram.read 13 = core.ram.pointer .lcl := by
    rw [read_yieldTop_of_isScratch harg' (by decide), Memory.read_write_of_ne (by decide),
      Memory.read_write_self (by decide)]
  have hback : yielded.ram.read 14 = core.ram.returnAddress := by
    rw [read_yieldTop_of_isScratch harg' (by decide), Memory.read_write_self (by decide)]
  obtain ⟨next, hrestore, hback', hagrees'⟩ := exists_exec?_restorePointers image
    savedPointers.reverse yielded fun i hi => hlcl ▸ hcells i (Nat.lt_trans hi (by decide))
  refine ⟨{ next with a := core.ram.returnAddress }, ?_, rfl, ?_⟩
  · rw [returnHead, Image.exec?_append, hpark, Option.bind_some, Image.exec?_append, hyield,
      Option.bind_some, Image.exec?_append, hrestore, Option.bind_some]
    rw [hback] at hback'
    simp +decide [address_secondScratch, hback', Core.out, Core.source, Comp.value,
      Comp.readsMemory]
  · have hyielded : yielded.ram.Agrees core.ram.yieldTop := hagrees.yieldTop htop
    rw [hlcl] at hagrees'
    exact hagrees'.trans (hyielded.restore fun i hi => hcells i (Nat.lt_trans hi (by decide)))

theorem leads_returnBlock (hall : ∀ status, allowed status) {rest' : Block}
    (hlocates : image.Locates core.ram.returnAddress rest') (htop : core.ram.hasTop)
    (hframe : core.ram.hasFrame) (rest : Block) :
    ∃ n core', image.Leads allowed n (returnBlock ++ rest) core rest' core' ∧
      core'.ram.Agrees core.ram.popFrame := by
  obtain ⟨next, hexec, ha, hagrees⟩ := exists_exec?_returnHead image htop hframe
  have hhead := Image.leads_of_exec? (hall _) hexec (jump :: rest)
  rw [returnBlock_eq, List.append_assoc]
  exact ⟨_, next, hhead.trans (Image.leads_jump hall (ha ▸ hlocates) _), hagrees⟩

end Lowering

end HackToolchain
