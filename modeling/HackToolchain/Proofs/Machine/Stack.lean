import HackToolchain.Machine.Memory

/-!
# The stack in RAM

`SP` holds the address of the first free cell of the stack, and the stack lives in the cells from 16
on. Two contents of RAM agree when they differ in the scratch cells of generated code at most. The
stack operations keep the agreement, since they look at no scratch cell.
-/

namespace HackToolchain

namespace Word

theorem sub_ofNat_succ (address : Word) (i : Nat) :
    address - .ofNat (i + 1) = address - 1 - .ofNat i := by
  rw [UInt16.ofNat_add]
  grind

theorem add_ofNat_succ (address : Word) (i : Nat) :
    address + .ofNat (i + 1) = address + 1 + .ofNat i := by
  rw [UInt16.ofNat_add]
  grind

end Word

namespace Memory

theorem read_write (ram : Memory) (address value other : Word) :
    (ram.write address value).read other =
      if other = address ∧ contains address = true then value else ram.read other := by
  by_cases heq : other = address
  · subst heq
    cases hc : contains other with
    | true => simp [read_write_self hc]
    | false => simp [write_of_not_contains hc]
  · simp [heq, read_write_of_ne heq]

def pointer (ram : Memory) (pointer : Pointer) : Word :=
  ram.read pointer.address

def setPointer (ram : Memory) (pointer : Pointer) (value : Word) : Memory :=
  ram.write pointer.address value

/-- Whether an address is that of a cell in which the stack may lie. -/
def isStackCell (address : Word) : Bool :=
  MemoryMap.variableBase ≤ address && address ≤ MemoryMap.maxAddress

def isScratch (address : Word) : Bool :=
  address == 13 || address == 14

/-- Whether an address is that of a cell which is not a scratch cell. -/
def isUsable (address : Word) : Bool :=
  contains address && !isScratch address

theorem isStackCell_iff (address : Word) :
    isStackCell address = true ↔ 16 ≤ address.toNat ∧ address.toNat < 32768 := by
  simp only [isStackCell, Bool.and_eq_true, decide_eq_true_eq, UInt16.le_iff_toNat_le]
  exact and_congr_right fun _ => Nat.lt_succ_iff.symm

theorem contains_of_isStackCell {address : Word} (h : isStackCell address = true) :
    contains address = true :=
  (contains_iff address).2 ((isStackCell_iff address).1 h).2

/-- A stack cell is none of the sixteen first cells. -/
theorem ne_of_isStackCell {address other : Word} (h : isStackCell address = true)
    (hother : isStackCell other = false) : address ≠ other := by
  rintro rfl
  simp [h] at hother

@[simp] theorem isStackCell_pointer (p : Pointer) : isStackCell p.address = false := by
  cases p <;> decide

@[simp] theorem contains_pointer (p : Pointer) : contains p.address = true := by
  cases p <;> decide

@[simp] theorem isScratch_pointer (p : Pointer) : isScratch p.address = false := by
  cases p <;> decide

theorem isScratch_of_isStackCell {address : Word} (h : isStackCell address = true) :
    isScratch address = false := by
  have h13 : address ≠ 13 := ne_of_isStackCell h (by decide)
  have h14 : address ≠ 14 := ne_of_isStackCell h (by decide)
  simp [isScratch, h13, h14]

theorem isUsable_of_isStackCell {address : Word} (h : isStackCell address = true) :
    isUsable address = true := by
  simp [isUsable, contains_of_isStackCell h, isScratch_of_isStackCell h]

theorem isUsable_iff (address : Word) :
    isUsable address = true ↔ contains address = true ∧ isScratch address = false := by
  simp [isUsable]

theorem isUsable_of_toNat_le {address : Word} (h : address.toNat ≤ 12) :
    isUsable address = true := by
  rw [isUsable_iff, contains_iff, isScratch, Bool.or_eq_false_iff, beq_eq_false_iff_ne,
    beq_eq_false_iff_ne]
  refine ⟨Nat.lt_of_le_of_lt h (by decide), ?_, ?_⟩
  · rintro rfl
    simp at h
  · rintro rfl
    simp at h

@[simp] theorem pointer_setPointer_self (ram : Memory) (p : Pointer) (value : Word) :
    (ram.setPointer p value).pointer p = value :=
  read_write_self (contains_pointer p) ram value

@[simp] theorem read_address (ram : Memory) (p : Pointer) :
    ram.read p.address = ram.pointer p := rfl

@[simp] theorem write_address (ram : Memory) (p : Pointer) (value : Word) :
    ram.write p.address value = ram.setPointer p value := rfl

theorem address_injective {p q : Pointer} (h : p.address = q.address) : p = q := by
  revert h
  cases p <;> cases q <;> decide

theorem pointer_setPointer_of_ne {p q : Pointer} (h : p ≠ q) (ram : Memory) (value : Word) :
    (ram.setPointer q value).pointer p = ram.pointer p :=
  read_write_of_ne (fun heq => h (address_injective heq)) ram value

theorem pointer_write_of_isStackCell {address : Word} (h : isStackCell address = true)
    (ram : Memory) (value : Word) (p : Pointer) :
    (ram.write address value).pointer p = ram.pointer p :=
  read_write_of_ne (ne_of_isStackCell h (isStackCell_pointer p)).symm ram value

theorem read_setPointer_of_isStackCell {address : Word} (h : isStackCell address = true)
    (ram : Memory) (p : Pointer) (value : Word) :
    (ram.setPointer p value).read address = ram.read address :=
  read_write_of_ne (ne_of_isStackCell h (isStackCell_pointer p)) ram value

theorem read_setPointer_of_isScratch {address : Word} (h : isScratch address = true)
    (ram : Memory) (p : Pointer) (value : Word) :
    (ram.setPointer p value).read address = ram.read address := by
  apply read_write_of_ne
  rintro rfl
  simp at h

def push (ram : Memory) (value : Word) : Memory :=
  (ram.write (ram.pointer .sp) value).setPointer .sp (ram.pointer .sp + 1)

def top (ram : Memory) : Word :=
  ram.read (ram.pointer .sp - 1)

def drop (ram : Memory) : Memory :=
  ram.setPointer .sp (ram.pointer .sp - 1)

@[simp] theorem pointer_sp_push (ram : Memory) (value : Word) :
    (ram.push value).pointer .sp = ram.pointer .sp + 1 :=
  pointer_setPointer_self _ _ _

@[simp] theorem pointer_sp_drop (ram : Memory) : ram.drop.pointer .sp = ram.pointer .sp - 1 :=
  pointer_setPointer_self _ _ _

theorem pointer_push_of_ne {ram : Memory} (h : isStackCell (ram.pointer .sp) = true) (value : Word)
    {p : Pointer} (hp : p ≠ .sp) : (ram.push value).pointer p = ram.pointer p := by
  rw [push, pointer_setPointer_of_ne hp, pointer_write_of_isStackCell h]

theorem pointer_drop_of_ne (ram : Memory) {p : Pointer} (hp : p ≠ .sp) :
    ram.drop.pointer p = ram.pointer p :=
  pointer_setPointer_of_ne hp _ _

theorem read_push_of_ne {ram : Memory} {address : Word} (hsp : address ≠ Pointer.sp.address)
    (h : address ≠ ram.pointer .sp) (value : Word) :
    (ram.push value).read address = ram.read address := by
  rw [push, setPointer, read_write_of_ne hsp, read_write_of_ne h]

theorem read_push_self {ram : Memory} (h : isStackCell (ram.pointer .sp) = true) (value : Word) :
    (ram.push value).read (ram.pointer .sp) = value := by
  rw [push, read_setPointer_of_isStackCell h, read_write_self (contains_of_isStackCell h)]

theorem read_drop_of_ne {address : Word} (h : address ≠ Pointer.sp.address) (ram : Memory) :
    ram.drop.read address = ram.read address :=
  read_write_of_ne h _ _

/-- Contents of RAM that differ in the scratch cells at most. -/
def Agrees (ram ram' : Memory) : Prop :=
  ∀ address, isScratch address = false → ram.read address = ram'.read address

namespace Agrees

variable {ram ram' ram'' : Memory}

theorem refl (ram : Memory) : ram.Agrees ram :=
  fun _ _ => rfl

theorem trans (h : ram.Agrees ram') (h' : ram'.Agrees ram'') : ram.Agrees ram'' :=
  fun address hscratch => (h address hscratch).trans (h' address hscratch)

theorem write (h : ram.Agrees ram') (address value : Word) :
    (ram.write address value).Agrees (ram'.write address value) := by
  intro other hother
  rw [read_write, read_write, h other hother]

theorem write_left (h : ram.Agrees ram') {address : Word} (haddress : isScratch address = true)
    (value : Word) : (ram.write address value).Agrees ram' := by
  intro other hother
  have hne : other ≠ address := by
    rintro rfl
    simp [haddress] at hother
  rw [read_write_of_ne hne, h other hother]

theorem pointer (h : ram.Agrees ram') (p : Pointer) : ram.pointer p = ram'.pointer p :=
  h p.address (isScratch_pointer p)

theorem setPointer (h : ram.Agrees ram') (p : Pointer) (value : Word) :
    (ram.setPointer p value).Agrees (ram'.setPointer p value) :=
  h.write p.address value

theorem push (h : ram.Agrees ram') (value : Word) : (ram.push value).Agrees (ram'.push value) := by
  rw [Memory.push, Memory.push, h.pointer]
  exact (h.write _ _).setPointer _ _

theorem drop (h : ram.Agrees ram') : ram.drop.Agrees ram'.drop := by
  rw [Memory.drop, Memory.drop, h.pointer]
  exact h.setPointer _ _

theorem top (h : ram.Agrees ram') (htop : isStackCell (ram'.pointer .sp - 1) = true) :
    ram.top = ram'.top := by
  rw [Memory.top, Memory.top, h.pointer]
  exact h _ (isScratch_of_isStackCell htop)

end Agrees

end Memory

end HackToolchain
