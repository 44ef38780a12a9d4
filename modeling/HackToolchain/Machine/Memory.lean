import HackToolchain.MemoryMap

/-!
# Memory

RAM has 32768 cells of one word. A word can be an address past the last cell: reading there gives
zero and writing there changes nothing. The machine checks an address with `Memory.contains` before
it uses it.
-/

namespace HackToolchain

structure Memory where
  cells : Vector Word MemoryMap.ramSize

namespace Memory

def zero : Memory :=
  ⟨Vector.replicate MemoryMap.ramSize 0⟩

@[inline] def contains (address : Word) : Bool :=
  address ≤ MemoryMap.maxAddress

/-- The word at an address, zero past the last cell. -/
@[inline] def read (ram : Memory) (address : Word) : Word :=
  if h : address.toNat < MemoryMap.ramSize then ram.cells[address.toNat] else 0

/-- Puts a word at an address, if that is the address of a cell. -/
@[inline] def write (ram : Memory) (address value : Word) : Memory :=
  if h : address.toNat < MemoryMap.ramSize then ⟨ram.cells.set address.toNat value⟩ else ram

/-- The words from `first` up to but not including `last`, as far as there are cells. -/
def slice (ram : Memory) (first last : Word) : List Word :=
  (ram.cells.toArray.extract first.toNat last.toNat).toList

theorem contains_iff (address : Word) :
    contains address = true ↔ address.toNat < MemoryMap.ramSize := by
  simp only [contains, decide_eq_true_eq, UInt16.le_iff_toNat_le]
  exact Nat.lt_succ_iff.symm

theorem read_of_not_contains {address : Word} (h : contains address = false) (ram : Memory) :
    ram.read address = 0 := by
  have hlt : ¬ address.toNat < MemoryMap.ramSize := fun hlt => by
    simp [(contains_iff address).2 hlt] at h
  simp [read, hlt]

theorem write_of_not_contains {address : Word} (h : contains address = false) (ram : Memory)
    (value : Word) : ram.write address value = ram := by
  have hlt : ¬ address.toNat < MemoryMap.ramSize := fun hlt => by
    simp [(contains_iff address).2 hlt] at h
  simp [write, hlt]

theorem read_write_self {address : Word} (h : contains address = true) (ram : Memory)
    (value : Word) : (ram.write address value).read address = value := by
  have hlt := (contains_iff address).1 h
  simp [read, write, hlt]

theorem read_write_of_ne {address other : Word} (h : other ≠ address) (ram : Memory)
    (value : Word) : (ram.write address value).read other = ram.read other := by
  have hne : ¬ address.toNat = other.toNat := fun heq => h (UInt16.toNat_inj.1 heq).symm
  unfold read write
  split
  · split
    · simp only
      rw [Vector.getElem_set_ne _ _ hne]
    · rfl
  · rfl

@[simp] theorem read_zero (address : Word) : zero.read address = 0 := by
  unfold read zero
  split <;> simp

end Memory

end HackToolchain
