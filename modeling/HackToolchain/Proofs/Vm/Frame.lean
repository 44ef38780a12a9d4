import HackToolchain.Proofs.Vm.Effect

/-!
# Frames in RAM

A call puts the return address and the pointers of the caller below the address of its frame, and
leaves the stack below that alone. A return takes the words for the pointers from there and puts the
returned word where the first argument was. Without arguments that is where the return address was,
so the words for the pointers are still in place.
-/

namespace HackToolchain

open Vm

namespace Memory

variable {ram : Memory} {address : Word}

theorem ne_address_of_isStackCell (h : isStackCell address = true) (p : Pointer) :
    address ≠ p.address :=
  ne_of_isStackCell h (isStackCell_pointer p)

/-- The cells that there is room for lie behind one another. -/
theorem toNat_of_hasRoom {n : Nat} (h : ram.hasRoom (n + 1)) (hn : n < 32768) :
    16 ≤ (ram.pointer .sp).toNat ∧ (ram.pointer .sp).toNat + n < 32768 := by
  obtain ⟨hge, hlt⟩ := (isStackCell_iff _).1 (isStackCell_of_hasRoom h)
  obtain ⟨-, hlast⟩ := (isStackCell_iff _).1 (h n (Nat.lt_succ_self n))
  rw [UInt16.toNat_add, UInt16.toNat_ofNat_of_lt' (Nat.lt_trans hn (by decide))] at hlast
  exact ⟨hge, by omega⟩

theorem sp_pushPointers (ps : List Pointer) (ram : Memory) :
    (pushPointers ps ram).pointer .sp = ram.pointer .sp + .ofNat ps.length := by
  induction ps generalizing ram with
  | nil => simp [pushPointers]
  | cons p ps ih =>
      rw [pushPointers, ih, pointer_sp_push, List.length_cons, Word.add_ofNat_succ]

theorem read_pushPointers_of_ne {ps : List Pointer} (hsp : address ≠ Pointer.sp.address)
    (h : ∀ i < ps.length, address ≠ ram.pointer .sp + .ofNat i) :
    (pushPointers ps ram).read address = ram.read address := by
  induction ps generalizing ram with
  | nil => rfl
  | cons p ps ih =>
      have hfirst : address ≠ ram.pointer .sp := by
        simpa using h 0 (Nat.succ_pos _)
      rw [pushPointers, ih, read_push_of_ne hsp hfirst]
      intro i hi
      rw [pointer_sp_push, ← Word.add_ofNat_succ]
      exact h (i + 1) (Nat.succ_lt_succ hi)

theorem read_pushPointers {ps : List Pointer} (hroom : ram.hasRoom ps.length)
    (hlength : ps.length < 32768) (hsp : Pointer.sp ∉ ps) {i : Nat} {p : Pointer}
    (h : ps[i]? = some p) :
    (pushPointers ps ram).read (ram.pointer .sp + .ofNat i) = ram.pointer p := by
  induction ps generalizing ram i with
  | nil => simp at h
  | cons q ps ih =>
      obtain ⟨hq, hps⟩ := not_or.1 (mt List.mem_cons.2 hsp)
      have hcell := isStackCell_of_hasRoom hroom
      cases i with
      | zero =>
          obtain rfl := Option.some.inj h
          have hzero : ram.pointer .sp + .ofNat 0 = ram.pointer .sp := UInt16.add_zero _
          rw [pushPointers, hzero, read_pushPointers_of_ne (ne_address_of_isStackCell hcell _),
            read_push_self hcell]
          intro j hj heq
          rw [pointer_sp_push, ← Word.add_ofNat_succ] at heq
          have hsize : j + 1 < UInt16.size :=
            Nat.lt_trans (Nat.lt_of_le_of_lt hj (Nat.lt_of_succ_lt hlength)) (by decide)
          have hnat := congrArg UInt16.toNat heq
          rw [UInt16.toNat_add, UInt16.toNat_ofNat_of_lt' hsize] at hnat
          have hsize : j + 1 < 65536 := hsize
          omega
      | succ i =>
          have hmem : p ∈ ps := List.mem_of_getElem? h
          have hne : p ≠ .sp := fun heq => hps (heq ▸ hmem)
          rw [pushPointers, Word.add_ofNat_succ, ← pointer_sp_push ram (ram.pointer q),
            ih (hasRoom_push hroom _) (Nat.lt_of_succ_lt hlength) hps h,
            pointer_push_of_ne hcell _ hne]

theorem read_restore_of_ne {ps : List Pointer} {other : Word}
    (h : ∀ p ∈ ps, other ≠ p.address) : (restore ps address ram).read other = ram.read other := by
  induction ps generalizing address ram with
  | nil => rfl
  | cons p ps ih =>
      rw [restore, ih fun q hq => h q (List.mem_cons_of_mem p hq)]
      exact read_write_of_ne (h p List.mem_cons_self) _ _

theorem pointer_restore {ps : List Pointer} (hnodup : ps.Nodup)
    (hcells : ∀ i < ps.length, isStackCell (address - .ofNat (i + 1)) = true) {i : Nat}
    {p : Pointer} (h : ps[i]? = some p) :
    (restore ps address ram).pointer p = ram.read (address - .ofNat (i + 1)) := by
  induction ps generalizing address ram i with
  | nil => simp at h
  | cons q ps ih =>
      obtain ⟨hq, hps⟩ := List.nodup_cons.1 hnodup
      cases i with
      | zero =>
          obtain rfl := Option.some.inj h
          rw [restore, ← read_address, read_restore_of_ne, read_address, pointer_setPointer_self]
          · rfl
          · rintro p hp heq
            exact hq (address_injective heq ▸ hp)
      | succ i =>
          have hcells' : ∀ j < ps.length, isStackCell (address - 1 - .ofNat (j + 1)) = true := by
            intro j hj
            have hcell := hcells (j + 1) (Nat.succ_lt_succ hj)
            rwa [Word.sub_ofNat_succ] at hcell
          rw [List.getElem?_cons_succ] at h
          have hi : i < ps.length := (List.getElem?_eq_some_iff.1 h).1
          rw [restore, ih hps hcells' h, Word.sub_ofNat_succ address (i + 1),
            read_setPointer_of_isStackCell (hcells' i hi)]

/-- RAM has, below the address of a frame, the return address and the words of the pointers in the
RAM of the caller. -/
structure SavesFrame (ram : Memory) (frame back : Word) (caller : Memory) : Prop where
  back : ram.read (frame - 5) = back
  pointers : ∀ i p, Lowering.savedPointers.reverse[i]? = some p →
    ram.read (frame - .ofNat (i + 1)) = caller.pointer p

/-- A call changes stack cells only where it pushes. -/
theorem read_pushFrame (ram : Memory) (back args : Word) (hcell : isStackCell address = true) :
    (ram.pushFrame back args).read address =
      (pushPointers Lowering.savedPointers (ram.push back)).read address := by
  rw [pushFrame, read_setPointer_of_isStackCell hcell, read_setPointer_of_isStackCell hcell]

theorem savesFrame_pushFrame (h : ram.hasRoom 5) (back args : Word) :
    (ram.pushFrame back args).SavesFrame (ram.pointer .sp + 5) back ram := by
  have hcell := isStackCell_of_hasRoom h
  obtain ⟨hge, hlt⟩ := toNat_of_hasRoom h (by decide)
  have hsp := pointer_sp_push ram back
  constructor
  · rw [UInt16.add_sub_cancel, read_pushFrame _ back args hcell,
      read_pushPointers_of_ne (ne_address_of_isStackCell hcell _), read_push_self hcell]
    intro i hi heq
    rw [hsp, ← Word.add_ofNat_succ] at heq
    have hi : i < 4 := hi
    have hnat := congrArg UInt16.toNat heq
    have hsize : i + 1 < UInt16.size := Nat.lt_trans (Nat.succ_lt_succ hi) (by decide)
    rw [UInt16.toNat_add, UInt16.toNat_ofNat_of_lt' hsize] at hnat
    omega
  · intro i p hp
    have hi : i < 4 := (List.getElem?_eq_some_iff.1 hp).1
    have hplace : ram.pointer .sp + 5 - .ofNat (i + 1) =
        (ram.push back).pointer .sp + .ofNat (3 - i) := by
      have hsum : UInt16.ofNat (3 - i) + .ofNat (i + 1) = 4 := by
        rw [← UInt16.ofNat_add, show 3 - i + (i + 1) = 4 by omega]
        rfl
      rw [hsp]
      grind
    have hmem : Lowering.savedPointers[3 - i]? = some p := by
      rw [List.getElem?_reverse (by exact hi)] at hp
      exact hp
    have hne : p ≠ .sp := by
      rintro rfl
      exact absurd (List.mem_of_getElem? hmem) (by decide)
    have hroom : (ram.push back).hasRoom 4 := hasRoom_push h back
    rw [hplace, read_pushFrame _ back args (hroom (3 - i) (by omega)),
      read_pushPointers hroom (by decide) (by decide) hmem, pointer_push_of_ne hcell _ hne]

/-- A call points `LCL` and `SP` behind the frame and `ARG` to the first argument. -/
theorem pointers_pushFrame (ram : Memory) (back args : Word) :
    (ram.pushFrame back args).pointer .sp = ram.pointer .sp + 5 ∧
      (ram.pushFrame back args).pointer .lcl = ram.pointer .sp + 5 ∧
      (ram.pushFrame back args).pointer .arg = ram.pointer .sp - args := by
  have hsaved : (pushPointers Lowering.savedPointers (ram.push back)).pointer .sp =
      ram.pointer .sp + 5 := by
    rw [sp_pushPointers, pointer_sp_push, ← Word.add_ofNat_succ]
    rfl
  simp only [pushFrame]
  generalize pushPointers Lowering.savedPointers (ram.push back) = saved at hsaved
  refine ⟨?_, ?_, ?_⟩
  · rw [pointer_setPointer_of_ne (by decide), pointer_setPointer_of_ne (by decide), hsaved]
  · rw [pointer_setPointer_self, hsaved]
  · rw [pointer_setPointer_of_ne (by decide), pointer_setPointer_self, hsaved,
      UInt16.add_sub_cancel]

theorem read_pushFrame_of_lt (h : ram.hasRoom 5) (back args : Word)
    (hcell : isStackCell address = true) (hlt : address.toNat < (ram.pointer .sp).toNat) :
    (ram.pushFrame back args).read address = ram.read address := by
  obtain ⟨-, hroom⟩ := toNat_of_hasRoom h (by decide)
  have hne := ne_address_of_isStackCell hcell .sp
  rw [read_pushFrame _ back args hcell, read_pushPointers_of_ne hne, read_push_of_ne hne]
  · rintro rfl
    omega
  · rintro i hi rfl
    have hi : i < 4 := hi
    rw [pointer_sp_push, ← Word.add_ofNat_succ, UInt16.toNat_add,
      UInt16.toNat_ofNat_of_lt' (Nat.lt_trans (by omega : i + 1 < 5) (by decide))] at hlt
    omega

theorem read_yieldTop_of_ne (hcell : isStackCell address = true)
    (hne : address ≠ ram.pointer .arg) : ram.yieldTop.read address = ram.read address := by
  rw [yieldTop, read_setPointer_of_isStackCell hcell, read_write_of_ne hne,
    read_drop_of_ne (ne_address_of_isStackCell hcell _)]

/-- A return changes no stack cell but that of the first argument. -/
theorem read_popFrame_of_ne (hcell : isStackCell address = true)
    (hne : address ≠ ram.pointer .arg) : ram.popFrame.read address = ram.read address := by
  rw [popFrame, read_restore_of_ne fun p _ => ne_address_of_isStackCell hcell p,
    read_yieldTop_of_ne hcell hne]

/-- A return puts the returned word on top of what the caller had below the arguments. -/
theorem top_popFrame (harg : isStackCell (ram.pointer .arg) = true) :
    ram.popFrame.pointer .sp = ram.pointer .arg + 1 ∧
      ram.popFrame.read (ram.pointer .arg) = ram.top := by
  have hcontains := contains_of_isStackCell harg
  have hkept : (ram.drop.write (ram.pointer .arg) ram.top).pointer .arg = ram.pointer .arg := by
    rw [pointer_write_of_isStackCell harg, pointer_drop_of_ne _ (by decide)]
  constructor
  · rw [popFrame, ← read_address, read_restore_of_ne, read_address, yieldTop,
      pointer_setPointer_self, hkept]
    intro p hp heq
    obtain rfl := address_injective heq
    exact absurd hp (by decide)
  · rw [popFrame, read_restore_of_ne fun p _ => ne_address_of_isStackCell harg p, yieldTop,
      read_setPointer_of_isStackCell harg, read_write_self hcontains]

theorem pointer_popFrame
    (hframe : ∀ i < 4, isStackCell (ram.pointer .lcl - .ofNat (i + 1)) = true ∧
      ram.pointer .lcl - .ofNat (i + 1) ≠ ram.pointer .arg) {i : Nat} {p : Pointer}
    (h : Lowering.savedPointers.reverse[i]? = some p) :
    ram.popFrame.pointer p = ram.read (ram.pointer .lcl - .ofNat (i + 1)) := by
  have hi : i < 4 := (List.getElem?_eq_some_iff.1 h).1
  have hcells : ∀ j < Lowering.savedPointers.reverse.length,
      isStackCell (ram.pointer .lcl - .ofNat (j + 1)) = true := fun j hj => (hframe j hj).1
  rw [popFrame, pointer_restore (by decide) hcells h,
    read_yieldTop_of_ne (hframe i hi).1 (hframe i hi).2]

end Memory

end HackToolchain
