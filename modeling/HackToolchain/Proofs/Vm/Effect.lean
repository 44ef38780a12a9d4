import HackToolchain.Lowering.Block
import HackToolchain.Proofs.Machine.Stack

/-!
# What commands do to RAM

The effect of a command on RAM, said without any code: pushing and popping cells, operators, the
frame that a call builds and a return takes down. Beside each effect stands its guard, which keeps
the stack in the cells of the stack and the cells that are reached through pointers off the scratch
cells. Effects and guards do not tell contents of RAM apart that agree.
-/

namespace HackToolchain

namespace Vm

/-- All ones if a condition on the difference of two words holds, else zero. -/
def truth (condition : Jump) (x y : Word) : Word :=
  if condition.Holds (x - y) then -1 else 0

/-- The result of an operator. One that is unary takes the second operand only. -/
def Operator.value (x y : Word) : Operator → Word
  | add => x + y
  | sub => x - y
  | neg => -y
  | eq => truth .eq x y
  | gt => truth .gt x y
  | lt => truth .lt x y
  | and => x &&& y
  | or => x ||| y
  | not => ~~~y

/-- The cell of a segment, with `static` for the cells of the unit. The constant segment has
none. -/
def Segment.cell? (static : Word → Word) (ram : Memory) (segment : Segment) (index : Word) :
    Option Word :=
  match segment.base with
  | .constant => none
  | .pointer p => some (ram.pointer p + index)
  | .fixed base => some (base + index)
  | .static => some (static index)

/-- The word that a segment has at an index. -/
def Segment.value (static : Word → Word) (ram : Memory) (segment : Segment) (index : Word) : Word :=
  match segment.cell? static ram index with
  | some address => ram.read address
  | none => index

end Vm

namespace Memory

open Vm

def replaceTop (ram : Memory) (value : Word) : Memory :=
  ram.write (ram.pointer .sp - 1) value

def hasTop (ram : Memory) : Prop :=
  isStackCell (ram.pointer .sp - 1) = true

def hasRoom (ram : Memory) (n : Nat) : Prop :=
  ∀ i < n, isStackCell (ram.pointer .sp + .ofNat i) = true

def operate (ram : Memory) (operator : Operator) : Memory :=
  if operator.isUnary then ram.replaceTop (operator.value 0 ram.top)
  else ram.drop.replaceTop (operator.value ram.drop.top ram.top)

/-- Pops into a cell, if there is one. -/
def popInto (ram : Memory) : Option Word → Memory
  | some address => ram.drop.write address ram.top
  | none => ram

def pushZeros : Nat → Memory → Memory
  | 0, ram => ram
  | n + 1, ram => pushZeros n (ram.push 0)

def pushPointers : List Pointer → Memory → Memory
  | [], ram => ram
  | p :: ps, ram => pushPointers ps (ram.push (ram.pointer p))

def pushFrame (ram : Memory) (back args : Word) : Memory :=
  let saved := pushPointers Lowering.savedPointers (ram.push back)
  (saved.setPointer .arg (saved.pointer .sp - 5 - args)).setPointer .lcl (saved.pointer .sp)

/-- Gives pointers the words below an address, from the top down. -/
def restore : List Pointer → Word → Memory → Memory
  | [], _, ram => ram
  | p :: ps, address, ram => restore ps (address - 1) (ram.setPointer p (ram.read (address - 1)))

/-- Pops the returned word to the place of the first argument, which becomes the top. -/
def yieldTop (ram : Memory) : Memory :=
  let moved := ram.drop.write (ram.pointer .arg) ram.top
  moved.setPointer .sp (moved.pointer .arg + 1)

def popFrame (ram : Memory) : Memory :=
  restore Lowering.savedPointers.reverse (ram.pointer .lcl) ram.yieldTop

def returnAddress (ram : Memory) : Word :=
  ram.read (ram.pointer .lcl - 5)

/-- Whether the words of a frame and the first argument are in cells that a program can use. -/
def hasFrame (ram : Memory) : Prop :=
  isUsable (ram.pointer .arg) = true ∧
    ∀ i < 5, isUsable (ram.pointer .lcl - .ofNat (i + 1)) = true

variable {ram ram' : Memory}

@[simp] theorem hasRoom_zero (ram : Memory) : ram.hasRoom 0 := by
  intro i hi
  omega

theorem isStackCell_of_hasRoom {n : Nat} (h : ram.hasRoom (n + 1)) :
    isStackCell (ram.pointer .sp) = true := by
  simpa using h 0 (Nat.succ_pos n)

theorem hasRoom_of_toNat {n : Nat} (hge : 16 ≤ (ram.pointer .sp).toNat)
    (hle : (ram.pointer .sp).toNat + n ≤ 32768) : ram.hasRoom n := by
  intro i hi
  have hsize : i < UInt16.size := Nat.lt_trans (by omega : i < 32768) (by decide)
  rw [isStackCell_iff, UInt16.toNat_add, UInt16.toNat_ofNat_of_lt' hsize]
  omega

theorem hasTop_iff (ram : Memory) :
    ram.hasTop ↔ 17 ≤ (ram.pointer .sp).toNat ∧ (ram.pointer .sp).toNat ≤ 32768 := by
  have hlt := (ram.pointer .sp).toNat_lt
  rw [hasTop, isStackCell_iff, UInt16.toNat_sub, UInt16.toNat_one]
  omega

theorem hasTop_drop_of_toNat (hge : 18 ≤ (ram.pointer .sp).toNat)
    (hle : (ram.pointer .sp).toNat ≤ 32768) : ram.drop.hasTop := by
  rw [hasTop_iff, pointer_sp_drop, UInt16.toNat_sub, UInt16.toNat_one]
  omega

theorem hasRoom_push {n : Nat} (h : ram.hasRoom (n + 1)) (value : Word) :
    (ram.push value).hasRoom n := by
  intro i hi
  have hcell := h (i + 1) (by omega)
  rwa [Word.add_ofNat_succ, ← pointer_sp_push ram value] at hcell

section Operate

variable {operator : Operator} {address : Word}

theorem pointer_replaceTop (h : ram.hasTop) (value : Word) (p : Pointer) :
    (ram.replaceTop value).pointer p = ram.pointer p :=
  pointer_write_of_isStackCell h ram value p

theorem top_replaceTop (h : ram.hasTop) (value : Word) : (ram.replaceTop value).top = value := by
  rw [top, pointer_replaceTop h]
  exact read_write_self (contains_of_isStackCell h) ram value

theorem top_drop (h : ram.drop.hasTop) : ram.drop.top = ram.read (ram.pointer .sp - 2) := by
  have hsecond : ram.pointer .sp - 2 = ram.pointer .sp - 1 - 1 := by grind
  rw [hasTop, pointer_sp_drop] at h
  rw [top, pointer_sp_drop, drop, read_setPointer_of_isStackCell h, hsecond]

variable (htop : ram.hasTop) (hsecond : operator.isUnary = false → ram.drop.hasTop)
include htop hsecond

theorem sp_operate : (ram.operate operator).pointer .sp =
    if operator.isUnary then ram.pointer .sp else ram.pointer .sp - 1 := by
  rw [operate]
  cases hunary : operator.isUnary with
  | true => exact pointer_replaceTop htop _ .sp
  | false => exact (pointer_replaceTop (hsecond hunary) _ .sp).trans (pointer_sp_drop ram)

theorem top_operate : (ram.operate operator).top =
    operator.value (ram.read (ram.pointer .sp - 2)) ram.top := by
  rw [operate]
  cases hunary : operator.isUnary with
  | true =>
      rw [if_pos rfl, top_replaceTop htop]
      cases operator with
      | neg | not => rfl
      | _ => simp [Operator.isUnary] at hunary
  | false =>
      have hdrop := hsecond hunary
      rw [if_neg Bool.false_ne_true, top_replaceTop hdrop, top_drop hdrop]

theorem read_operate_of_ne (hsp : address ≠ Pointer.sp.address)
    (h : address ≠ (ram.operate operator).pointer .sp - 1) :
    (ram.operate operator).read address = ram.read address := by
  rw [sp_operate htop hsecond] at h
  rw [operate]
  cases hunary : operator.isUnary with
  | true =>
      rw [if_pos hunary] at h
      exact read_write_of_ne h ram _
  | false =>
      rw [if_neg (by simp [hunary])] at h
      rw [if_neg Bool.false_ne_true, replaceTop, pointer_sp_drop, read_write_of_ne h,
        read_drop_of_ne hsp]

end Operate

namespace Agrees

theorem cell? (h : ram.Agrees ram') (static : Word → Word) (segment : Segment) (index : Word) :
    segment.cell? static ram index = segment.cell? static ram' index := by
  unfold Segment.cell?
  split
  · rfl
  · rw [h.pointer]
  · rfl
  · rfl

theorem value (h : ram.Agrees ram') {static : Word → Word} {segment : Segment} {index : Word}
    (hcell : ∀ address ∈ segment.cell? static ram' index, isUsable address = true) :
    segment.value static ram index = segment.value static ram' index := by
  rw [Segment.value, Segment.value, h.cell?]
  cases hc : segment.cell? static ram' index with
  | none => rfl
  | some address => exact h address ((isUsable_iff address).1 (hcell address hc)).2

theorem hasTop (h : ram.Agrees ram') : ram.hasTop ↔ ram'.hasTop := by
  rw [Memory.hasTop, Memory.hasTop, h.pointer]

theorem hasRoom (h : ram.Agrees ram') (n : Nat) : ram.hasRoom n ↔ ram'.hasRoom n := by
  rw [Memory.hasRoom, Memory.hasRoom, h.pointer]

theorem hasFrame (h : ram.Agrees ram') : ram.hasFrame ↔ ram'.hasFrame := by
  rw [Memory.hasFrame, Memory.hasFrame, h.pointer, h.pointer]

theorem replaceTop (h : ram.Agrees ram') (value : Word) :
    (ram.replaceTop value).Agrees (ram'.replaceTop value) := by
  rw [Memory.replaceTop, Memory.replaceTop, h.pointer]
  exact h.write _ _

theorem operate (h : ram.Agrees ram') {operator : Operator} (htop : ram'.hasTop)
    (hsecond : operator.isUnary = false → ram'.drop.hasTop) :
    (ram.operate operator).Agrees (ram'.operate operator) := by
  rw [Memory.operate, Memory.operate, h.top htop]
  cases hunary : operator.isUnary with
  | true => exact h.replaceTop _
  | false =>
      rw [h.drop.top (hsecond hunary)]
      exact h.drop.replaceTop _

theorem popInto (h : ram.Agrees ram') (htop : ram'.hasTop) (cell : Option Word) :
    (ram.popInto cell).Agrees (ram'.popInto cell) := by
  cases cell with
  | none => exact h
  | some address =>
      rw [Memory.popInto, Memory.popInto, h.top htop]
      exact h.drop.write _ _

theorem pushZeros (n : Nat) (h : ram.Agrees ram') :
    (Memory.pushZeros n ram).Agrees (Memory.pushZeros n ram') := by
  induction n generalizing ram ram' with
  | zero => exact h
  | succ n ih => exact ih (h.push 0)

theorem pushPointers (ps : List Pointer) (h : ram.Agrees ram') :
    (Memory.pushPointers ps ram).Agrees (Memory.pushPointers ps ram') := by
  induction ps generalizing ram ram' with
  | nil => exact h
  | cons p ps ih =>
      rw [Memory.pushPointers, Memory.pushPointers, h.pointer]
      exact ih (h.push _)

theorem pushFrame (h : ram.Agrees ram') (back args : Word) :
    (ram.pushFrame back args).Agrees (ram'.pushFrame back args) := by
  have hsaved := (h.push back).pushPointers Lowering.savedPointers
  simp only [Memory.pushFrame, hsaved.pointer]
  exact (hsaved.setPointer _ _).setPointer _ _

theorem yieldTop (h : ram.Agrees ram') (htop : ram'.hasTop) :
    ram.yieldTop.Agrees ram'.yieldTop := by
  have hmoved := h.drop.write (ram'.pointer .arg) ram'.top
  simp only [Memory.yieldTop, h.top htop, h.pointer, hmoved.pointer]
  exact hmoved.setPointer _ _

theorem returnAddress (h : ram.Agrees ram') (hframe : ram'.hasFrame) :
    ram.returnAddress = ram'.returnAddress := by
  rw [Memory.returnAddress, Memory.returnAddress, h.pointer]
  exact h _ ((isUsable_iff _).1 (hframe.2 4 (by decide))).2

theorem restore {ps : List Pointer} {address : Word} (h : ram.Agrees ram')
    (hcells : ∀ i < ps.length, isUsable (address - .ofNat (i + 1)) = true) :
    (Memory.restore ps address ram).Agrees (Memory.restore ps address ram') := by
  induction ps generalizing address ram ram' with
  | nil => exact h
  | cons p ps ih =>
      have hfirst : isUsable (address - 1) = true := hcells 0 (Nat.succ_pos _)
      rw [Memory.restore, Memory.restore, h _ ((isUsable_iff _).1 hfirst).2]
      refine ih (h.setPointer _ _) fun i hi => ?_
      have hcell := hcells (i + 1) (Nat.succ_lt_succ hi)
      rwa [Word.sub_ofNat_succ] at hcell

theorem popFrame (h : ram.Agrees ram') (htop : ram'.hasTop) (hframe : ram'.hasFrame) :
    ram.popFrame.Agrees ram'.popFrame := by
  rw [Memory.popFrame, Memory.popFrame, h.pointer]
  apply (h.yieldTop htop).restore
  intro i hi
  exact hframe.2 i (Nat.lt_trans hi (by decide))

end Agrees

end Memory

end HackToolchain
