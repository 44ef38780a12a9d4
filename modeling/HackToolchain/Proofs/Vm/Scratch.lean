import HackToolchain.Proofs.Vm.Frame

/-!
# What commands do to the scratch cells

Up to the scratch cells the effects of commands are in `Vm.Effect`. Here are the effects of the two
commands whose blocks use one, with what they leave there: a pop through a pointer parks the address
of its cell, and a function counts the locals that it has not pushed yet.
-/

namespace HackToolchain

open Vm

/-- Whether the cells of a segment are reached through a pointer. -/
def Vm.Segment.isIndirect (segment : Segment) : Bool :=
  match segment.base with
  | .pointer _ => true
  | _ => false

namespace Memory

variable {ram ram' : Memory} {address : Word} {n : Nat}

/-- Parks the address of a cell that is reached through a pointer. -/
def park (ram : Memory) (segment : Segment) (index : Word) : Memory :=
  match segment.base with
  | .pointer p => ram.write 13 (ram.pointer p + index)
  | _ => ram

/-- Pushes zeros and writes down after each how many are left. -/
def countZeros : Nat → Memory → Memory
  | 0, ram => ram
  | n + 1, ram => countZeros n ((ram.push 0).write 13 (.ofNat n))

/-- Pushes a zero for each local of a function. -/
def pushLocals (ram : Memory) (locals : Word) : Memory :=
  if locals = 0 then ram else countZeros locals.toNat (ram.write 13 locals)

theorem agrees_park (ram : Memory) (segment : Segment) (index : Word) :
    (ram.park segment index).Agrees ram := by
  unfold park
  split
  · exact (Agrees.refl ram).write_left (by decide) _
  · exact .refl ram

/-- Parking changes the first scratch cell only, and only for a cell behind a pointer. -/
theorem read_park_of_ne {segment : Segment} (h : segment.isIndirect = true → address ≠ 13)
    (index : Word) : (ram.park segment index).read address = ram.read address := by
  unfold park
  split
  · next p hbase => exact read_write_of_ne (h (by simp [Segment.isIndirect, hbase])) _ _
  · rfl

theorem read_park_of_isIndirect {static : Word → Word} {segment : Segment} {index : Word}
    (hindirect : segment.isIndirect = true) (h : segment.cell? static ram index = some address) :
    (ram.park segment index).read 13 = address := by
  cases hbase : segment.base with
  | pointer p =>
      simp only [Segment.cell?, hbase, Option.some.injEq] at h
      simp only [park, hbase]
      rw [read_write_self (by decide), h]
  | _ => simp [Segment.isIndirect, hbase] at hindirect

theorem read_popInto_self (haddress : contains address = true) :
    (ram.popInto (some address)).read address = ram.top :=
  read_write_self haddress _ _

theorem read_popInto_of_ne {other : Word} (hsp : other ≠ Pointer.sp.address)
    (h : other ≠ address) : (ram.popInto (some address)).read other = ram.read other := by
  rw [popInto, read_write_of_ne h, read_drop_of_ne hsp]

theorem sp_popInto (h : address ≠ Pointer.sp.address) :
    (ram.popInto (some address)).pointer .sp = ram.pointer .sp - 1 := by
  rw [popInto, pointer, read_write_of_ne h.symm, read_address, pointer_sp_drop]

/-- A word that is pushed and popped into a cell is there, and the stack is as before. -/
theorem popInto_push (value : Word)
    (hplace : isStackCell (ram.pointer .sp) = true) (hcell : isStackCell address = true) :
    (ram.push value).hasTop ∧
      ((ram.push value).popInto (some address)).read address = value ∧
      ((ram.push value).popInto (some address)).pointer .sp = ram.pointer .sp := by
  have hlast : (ram.push value).pointer .sp - 1 = ram.pointer .sp := by
    rw [pointer_sp_push, UInt16.add_sub_cancel]
  refine ⟨?_, ?_, ?_⟩
  · rw [hasTop, hlast]
    exact hplace
  · rw [read_popInto_self (contains_of_isStackCell hcell), top, hlast, read_push_self hplace]
  · rw [sp_popInto (ne_of_isStackCell hcell (isStackCell_pointer .sp)), hlast]

theorem Agrees.countZeros (h : ram.Agrees ram') (n : Nat) :
    (Memory.countZeros n ram).Agrees (Memory.pushZeros n ram') := by
  induction n generalizing ram ram' with
  | zero => exact h
  | succ n ih => exact ih ((h.push 0).write_left (by decide) _)

theorem agrees_pushLocals (ram : Memory) (locals : Word) :
    (ram.pushLocals locals).Agrees (pushZeros locals.toNat ram) := by
  rw [pushLocals]
  split
  · next hzero =>
      rw [hzero]
      exact .refl ram
  · have hstart : (ram.write 13 locals).Agrees ram := (Agrees.refl ram).write_left (by decide) _
    exact hstart.countZeros _

theorem pointer_sp_write_scratch (ram : Memory) (value : Word) :
    (ram.write 13 value).pointer .sp = ram.pointer .sp :=
  read_write_of_ne (by decide) ram value

theorem hasRoom_write_scratch (value : Word) (h : ram.hasRoom n) :
    (ram.write 13 value).hasRoom n := by
  rwa [hasRoom, pointer_sp_write_scratch]

theorem sp_countZeros (n : Nat) (ram : Memory) :
    (ram.countZeros n).pointer .sp = ram.pointer .sp + .ofNat n := by
  induction n generalizing ram with
  | zero => exact (UInt16.add_zero _).symm
  | succ n ih =>
      rw [countZeros, ih, pointer_sp_write_scratch, pointer_sp_push, Word.add_ofNat_succ]

theorem read_countZeros_of_ne (hsp : address ≠ Pointer.sp.address) (hscratch : address ≠ 13)
    (h : ∀ i < n, address ≠ ram.pointer .sp + .ofNat i) :
    (ram.countZeros n).read address = ram.read address := by
  induction n generalizing ram with
  | zero => rfl
  | succ n ih =>
      have hfirst : address ≠ ram.pointer .sp := by
        simpa using h 0 (Nat.succ_pos n)
      rw [countZeros, ih, read_write_of_ne hscratch, read_push_of_ne hsp hfirst]
      intro i hi
      rw [pointer_sp_write_scratch, pointer_sp_push, ← Word.add_ofNat_succ]
      exact h (i + 1) (Nat.succ_lt_succ hi)

theorem read_countZeros_of_eq_zero (hsp : address ≠ Pointer.sp.address) (hscratch : address ≠ 13)
    (h : ram.read address = 0) : (ram.countZeros n).read address = 0 := by
  induction n generalizing ram with
  | zero => exact h
  | succ n ih =>
      apply ih
      rw [read_write_of_ne hscratch, push, setPointer, read_write_of_ne hsp, read_write, h,
        ite_self]

theorem read_countZeros (hroom : ram.hasRoom n) {i : Nat} (hi : i < n) :
    (ram.countZeros n).read (ram.pointer .sp + .ofNat i) = 0 := by
  induction n generalizing ram i with
  | zero => exact absurd hi (Nat.not_lt_zero i)
  | succ n ih =>
      have hcell := isStackCell_of_hasRoom hroom
      rw [countZeros]
      cases i with
      | zero =>
          have hzero : ram.pointer .sp + .ofNat 0 = ram.pointer .sp := UInt16.add_zero _
          have hscratch : ram.pointer .sp ≠ 13 := ne_of_isStackCell hcell (by decide)
          rw [hzero]
          apply read_countZeros_of_eq_zero (ne_address_of_isStackCell hcell _) hscratch
          rw [read_write_of_ne hscratch, read_push_self hcell]
      | succ i =>
          have hsp : ((ram.push 0).write 13 (.ofNat n)).pointer .sp = ram.pointer .sp + 1 := by
            rw [pointer_sp_write_scratch, pointer_sp_push]
          rw [Word.add_ofNat_succ, ← hsp]
          exact ih (hasRoom_write_scratch _ (hasRoom_push hroom 0)) (Nat.lt_of_succ_lt_succ hi)

/-- In the end no zero is left to push. -/
theorem read_scratch_countZeros (n : Nat) (ram : Memory) :
    (ram.countZeros (n + 1)).read 13 = 0 := by
  induction n generalizing ram with
  | zero => exact read_write_self (by decide) _ _
  | succ n ih => exact ih _

section Locals

variable {locals : Word}

theorem sp_pushLocals (ram : Memory) (locals : Word) :
    (ram.pushLocals locals).pointer .sp = ram.pointer .sp + locals := by
  rw [pushLocals]
  split
  · next hzero => rw [hzero, UInt16.add_zero]
  · rw [sp_countZeros, pointer_sp_write_scratch, UInt16.ofNat_toNat]

theorem read_pushLocals (hroom : ram.hasRoom locals.toNat) {i : Nat} (hi : i < locals.toNat) :
    (ram.pushLocals locals).read (ram.pointer .sp + .ofNat i) = 0 := by
  have hlocals : locals ≠ 0 := by
    rintro rfl
    exact absurd hi (Nat.not_lt_zero i)
  rw [pushLocals, if_neg hlocals, ← pointer_sp_write_scratch ram locals]
  exact read_countZeros (hasRoom_write_scratch locals hroom) hi

theorem read_scratch_pushLocals (ram : Memory) (h : locals ≠ 0) :
    (ram.pushLocals locals).read 13 = 0 := by
  have hne : locals.toNat ≠ 0 := fun hzero => h (UInt16.toNat_inj.1 hzero)
  obtain ⟨n, hn⟩ := Nat.exists_eq_succ_of_ne_zero hne
  rw [pushLocals, if_neg h, hn]
  exact read_scratch_countZeros n _

/-- Nothing changes but `SP`, the cells of the locals and the counter. -/
theorem read_pushLocals_of_ne (hsp : address ≠ Pointer.sp.address)
    (hscratch : locals ≠ 0 → address ≠ 13)
    (h : ∀ i < locals.toNat, address ≠ ram.pointer .sp + .ofNat i) :
    (ram.pushLocals locals).read address = ram.read address := by
  rw [pushLocals]
  split
  · rfl
  · next hlocals =>
      have hne := hscratch hlocals
      rw [read_countZeros_of_ne hsp hne, read_write_of_ne hne]
      rwa [pointer_sp_write_scratch]

end Locals

end Memory

end HackToolchain
