import HackToolchain.Instruction.Computation
import HackToolchain.Machine.Step
import HackToolchain.Proofs.List

/-!
# What the word of an instruction does

`Cpu.step` reads a word bit by bit. Here a step is described by the instruction that the word was
made from: its memory word is needed as an operand or for the result, the control bits of a
computation steer the arithmetic unit to its value, the destination
bits are the destination, and the jump bits test the condition of the jump. The bits are separated
by checking every compute instruction; the arithmetic holds for all operands.
-/

namespace HackToolchain

namespace Word

theorem bit_fifteen (w : Word) : w.bit 15 = decide (32768 ≤ w.toNat) := by
  unfold bit
  rw [Bool.eq_iff_iff]
  simp only [beq_iff_eq, decide_eq_true_eq]
  rw [← UInt16.toNat_inj]
  have hlt := w.toNat_lt
  simp only [UInt16.toNat_and, UInt16.toNat_shiftRight, UInt16.reduceToNat, Nat.and_one_is_mod,
    Nat.shiftRight_eq_div_pow]
  rw [show 2 ^ (15 % 16) = 32768 from rfl]
  omega

theorem isNegative_eq (w : Word) : w.isNegative = decide (w.signed < 0) := by
  have hlt := w.toNat_lt
  rw [isNegative, bit_fifteen, signed, BitVec.toInt_eq_toNat_cond, UInt16.toNat_toBitVec,
    Bool.eq_iff_iff]
  simp only [decide_eq_true_eq]
  split <;> omega

theorem and_one_eq (w : Word) : w &&& 1 = 0 ∨ w &&& 1 = 1 := by
  simp only [← UInt16.toNat_inj, UInt16.toNat_and, UInt16.reduceToNat, Nat.and_one_is_mod]
  omega

theorem bit_or (x y i : Word) : (x ||| y).bit i = (x.bit i || y.bit i) := by
  have hor : (x >>> i ||| y >>> i) &&& 1 = (x >>> i &&& 1) ||| (y >>> i &&& 1) := by
    rw [← UInt16.toBitVec_inj]
    simp [BitVec.and_or_distrib_right]
  unfold bit
  rw [UInt16.shiftRight_or, hor]
  rcases and_one_eq (x >>> i) with hx | hx <;> rcases and_one_eq (y >>> i) with hy | hy <;>
    simp [hx, hy]

theorem bit_and (x y i : Word) : (x &&& y).bit i = (x.bit i && y.bit i) := by
  have hand : (x >>> i &&& y >>> i) &&& 1 = (x >>> i &&& 1) &&& (y >>> i &&& 1) := by
    rw [← UInt16.toBitVec_inj]
    ext i
    simp only [UInt16.toBitVec_and, BitVec.getElem_and]
    grind
  unfold bit
  rw [UInt16.shiftRight_and, hand]
  rcases and_one_eq (x >>> i) with hx | hx <;> rcases and_one_eq (y >>> i) with hy | hy <;>
    simp [hx, hy]

theorem signed_of_lt {w : Word} (h : w.toNat < 32768) : w.signed = w.toNat := by
  rw [signed, BitVec.toInt_eq_toNat_cond, UInt16.toNat_toBitVec]
  split <;> omega

theorem or_and (x y mask : Word) : (x ||| y) &&& mask = x &&& mask ||| y &&& mask := by
  rw [← UInt16.toBitVec_inj]
  simp [BitVec.and_or_distrib_right]

theorem signed_eq_zero_iff (w : Word) : w.signed = 0 ↔ w = 0 := by
  have hlt := w.toNat_lt
  rw [signed, BitVec.toInt_eq_toNat_cond, UInt16.toNat_toBitVec, ← UInt16.toNat_inj,
    show (0 : Word).toNat = 0 from rfl]
  split <;> omega

end Word

namespace Dest

def all : List Dest :=
  [false, true].flatMap fun a => [false, true].flatMap fun d => [false, true].map fun m => ⟨a, d, m⟩

theorem mem_all (dest : Dest) : dest ∈ all := by
  obtain ⟨a, d, m⟩ := dest
  cases a <;> cases d <;> cases m <;> decide

end Dest

namespace Jump

theorem bits_bit (jump : Jump) :
    (jump.bits.bit 2, jump.bits.bit 1, jump.bits.bit 0) =
      match jump with
      | gt => (false, false, true)
      | eq => (false, true, false)
      | ge => (false, true, true)
      | lt => (true, false, false)
      | ne => (true, false, true)
      | le => (true, true, false)
      | always => (true, true, true) := by
  cases jump <;> decide

/-- Jumping below, at and above zero covers exactly the words that satisfy the condition. -/
theorem tests_eq_holds (out : Word) (jump : Jump) :
    ((jump.bits.bit 2 && out.isNegative) || (jump.bits.bit 1 && out == 0) ||
      (jump.bits.bit 0 && !out.isNegative && out != 0)) = decide (jump.Holds out) := by
  have hzero : (out == 0) = decide (out.signed = 0) := by
    rw [Bool.eq_iff_iff]
    simp [out.signed_eq_zero_iff]
  have hbits := jump.bits_bit
  rw [Word.isNegative_eq, bne, hzero, Bool.eq_iff_iff, decide_eq_true_eq]
  cases jump <;> simp only [Prod.mk.injEq] at hbits <;> simp [hbits, Holds] <;> omega

end Jump

namespace Machine

/-- Steered by the bits of a computation, the arithmetic unit gives its value. -/
theorem alu_bits (x y : Word) (comp : Comp) : alu comp.bits x y = comp.value x y := by
  cases comp with
  | or s =>
      have hdual : ~~~(~~~x &&& ~~~y) = x ||| y := by
        rw [← UInt16.toBitVec_inj]
        simp [BitVec.not_and]
      cases s <;> simpa +decide [alu, Comp.value, prepare] using hdual
  | and s => cases s <;> simp +decide [alu, Comp.value, prepare]
  | source s | notSource s | negSource s | incSource s | decSource s =>
      cases s <;> simp +decide [alu, Comp.value, prepare, UInt16.not_eq_neg_sub] <;> grind
  | add s | subSource s | subD s =>
      cases s <;> simp +decide [alu, Comp.value, prepare, UInt16.not_eq_neg_sub] <;> grind
  | _ => simp +decide [alu, Comp.value, prepare, UInt16.not_eq_neg_sub] <;> grind

/-- The arithmetic unit looks at the low six bits of its control word only. -/
theorem alu_congr {control other : Word}
    (h : ∀ i ∈ ([0, 1, 2, 3, 4, 5] : List Word), control.bit i = other.bit i) (x y : Word) :
    alu control x y = alu other x y := by
  simp only [List.mem_cons, List.not_mem_nil, or_false, forall_eq_or_imp, forall_eq] at h
  simp only [alu, h]

/-- Whether an instruction uses the memory word at A. -/
def usesMemory (instruction : Word) : Bool :=
  instruction.bit 12 || instruction.bit 3

namespace Cpu

/-- The result of an instruction, if its operand is there. -/
def result (cpu : Cpu) (instruction : Word) : Word :=
  alu (instruction >>> 6) cpu.d (if instruction.bit 12 then cpu.ram.read cpu.a else cpu.a)

/-- What an instruction does where its memory word, if it uses one, is a cell. -/
def compute (cpu : Cpu) (instruction : Word) : Status × Cpu :=
  let out := cpu.result instruction
  let jumps := jumpsOn instruction out
  let halts := jumps && isPlainJump instruction && closesLoop cpu.rom cpu.pc cpu.a
  (if halts then .halted else .running,
    { cpu with
      ram := if instruction.bit 3 then cpu.ram.write cpu.a out else cpu.ram
      a := if instruction.bit 5 then out else cpu.a
      d := if instruction.bit 4 then out else cpu.d
      pc := if jumps then cpu.a else cpu.pc + 1 })

/-- The operand and the result of an instruction are in memory at the same place, so one check does for
both, and everything else is changed at once. -/
theorem execute_eq (cpu : Cpu) (instruction : Word) :
    cpu.execute instruction =
      if !instruction.bit 15 then (.ok .running, { cpu with a := instruction, pc := cpu.pc + 1 })
      else if usesMemory instruction && !Memory.contains cpu.a then
        (.error (.addressOutOfRange cpu.a cpu.pc), cpu)
      else (.ok (cpu.compute instruction).1, (cpu.compute instruction).2) := by
  -- operand and result are at the same A, so whether that is a cell decides both checks
  unfold execute operand storeResult loadWord storeWord usesMemory compute result
  cases instruction.bit 15 <;> cases instruction.bit 12 <;> cases instruction.bit 3 <;>
    cases Memory.contains cpu.a <;> rfl

end Cpu

end Machine

namespace Computation

/-- Whether a compute instruction needs a memory word. -/
def usesMemory (c : Computation) : Bool :=
  c.comp.readsMemory || c.dest.m

def jumps (c : Computation) (out : Word) : Bool :=
  c.jump.any fun jump => decide (jump.Holds out)

def isPlainJump (c : Computation) : Bool :=
  c.jump == some .always && c.dest == Dest.nowhere

/-- The bits of the three parts of a word, in their places, that `Cpu.step` looks at. -/
theorem part_bits (c : Computation) :
    (∀ i ∈ ([0, 1, 2, 3, 4, 5, 12] : List Word), (c.comp.bits <<< 6).bit i =
      (i == 12 && c.comp.readsMemory)) ∧
    (∀ i ∈ ([0, 1, 2, 3, 4, 5, 12] : List Word), (c.dest.bits <<< 3).bit i =
      (i == 5 && c.dest.a || i == 4 && c.dest.d || i == 3 && c.dest.m)) ∧
    (∀ i ∈ ([3, 4, 5, 12] : List Word), ((c.jump.map Jump.bits).getD 0).bit i = false) := by
  have hcomp : ∀ comp ∈ Comp.all, ∀ i ∈ ([0, 1, 2, 3, 4, 5, 12] : List Word),
      (comp.bits <<< 6).bit i = (i == 12 && comp.readsMemory) := by decide +kernel
  have hdest : ∀ dest ∈ Dest.all, ∀ i ∈ ([0, 1, 2, 3, 4, 5, 12] : List Word),
      (dest.bits <<< 3).bit i =
        (i == 5 && dest.a || i == 4 && dest.d || i == 3 && dest.m) := by decide +kernel
  have hjump : ∀ jump ∈ Jump.all, ∀ i ∈ ([3, 4, 5, 12] : List Word),
      jump.bits.bit i = false := by decide +kernel
  refine ⟨hcomp c.comp (Comp.mem_all _), hdest c.dest (Dest.mem_all _), ?_⟩
  cases c.jump with
  | none => decide
  | some jump => exact hjump jump (Jump.mem_all jump)

theorem word_bit (c : Computation) (i : Word) :
    c.word.bit i = ((0xE000 : Word).bit i || (c.comp.bits <<< 6).bit i ||
      (c.dest.bits <<< 3).bit i || ((c.jump.map Jump.bits).getD 0).bit i) := by
  rw [word, Word.bit_or, Word.bit_or, Word.bit_or]

theorem control_bits (c : Computation) :
    ∀ i ∈ ([0, 1, 2, 3, 4, 5] : List Word), (c.word >>> 6).bit i = c.comp.bits.bit i := by
  have hcomp : ∀ comp ∈ Comp.all, ∀ i ∈ ([0, 1, 2, 3, 4, 5] : List Word),
      ((comp.bits <<< 6) >>> 6).bit i = comp.bits.bit i := by decide +kernel
  have hdest : ∀ dest ∈ Dest.all, ∀ i ∈ ([0, 1, 2, 3, 4, 5] : List Word),
      ((dest.bits <<< 3) >>> 6).bit i = false := by decide +kernel
  have hjump : ∀ jump ∈ none :: Jump.all.map some, ∀ i ∈ ([0, 1, 2, 3, 4, 5] : List Word),
      (((jump.map Jump.bits).getD 0) >>> 6).bit i = false := by decide +kernel
  have hmem : c.jump ∈ none :: Jump.all.map some := by
    cases c.jump with
    | none => exact List.mem_cons_self
    | some jump => exact List.mem_cons_of_mem _ (List.mem_map_of_mem (Jump.mem_all jump))
  have hhead : ∀ i ∈ ([0, 1, 2, 3, 4, 5] : List Word), ((0xE000 : Word) >>> 6).bit i = false := by
    decide +kernel
  intro i hi
  rw [word, UInt16.shiftRight_or, UInt16.shiftRight_or, UInt16.shiftRight_or, Word.bit_or,
    Word.bit_or, Word.bit_or, hcomp _ (Comp.mem_all _) i hi, hdest _ (Dest.mem_all _) i hi,
    hjump _ hmem i hi, hhead i hi]
  simp

theorem alu_word (c : Computation) (x y : Word) :
    Machine.alu (c.word >>> 6) x y = c.comp.value x y := by
  rw [Machine.alu_congr c.control_bits, Machine.alu_bits]

theorem word_fields (c : Computation) :
    c.word.bit 12 = c.comp.readsMemory ∧ c.word.bit 5 = c.dest.a ∧ c.word.bit 4 = c.dest.d ∧
      c.word.bit 3 = c.dest.m := by
  obtain ⟨hcomp, hdest, hjump⟩ := c.part_bits
  simp only [List.mem_cons, List.not_mem_nil, or_false, forall_eq_or_imp, forall_eq]
    at hcomp hdest hjump
  obtain ⟨-, -, -, hc3, hc4, hc5, hc12⟩ := hcomp
  obtain ⟨-, -, -, hd3, hd4, hd5, hd12⟩ := hdest
  obtain ⟨hj3, hj4, hj5, hj12⟩ := hjump
  simp +decide [word_bit, *]

theorem usesMemory_word (c : Computation) : Machine.usesMemory c.word = c.usesMemory := by
  obtain ⟨hreads, -, -, hwrites⟩ := c.word_fields
  rw [Machine.usesMemory, hreads, hwrites, usesMemory]

theorem jumpsOn_word (c : Computation) (out : Word) :
    Machine.jumpsOn c.word out = c.jumps out := by
  obtain ⟨hcomp, hdest, -⟩ := c.part_bits
  simp only [List.mem_cons, List.not_mem_nil, or_false, forall_eq_or_imp, forall_eq] at hcomp hdest
  obtain ⟨hc0, hc1, hc2, -⟩ := hcomp
  obtain ⟨hd0, hd1, hd2, -⟩ := hdest
  have htests : Machine.jumpsOn c.word out =
      Machine.jumpsOn ((c.jump.map Jump.bits).getD 0) out := by
    have hhead : (0xE000 : Word).bit 0 = false ∧ (0xE000 : Word).bit 1 = false ∧
        (0xE000 : Word).bit 2 = false := by decide
    simp +decide [Machine.jumpsOn, word_bit, *]
  rw [htests, jumps]
  cases c.jump with
  | none => simp +decide [Machine.jumpsOn]
  | some jump => exact jump.tests_eq_holds out

theorem word_and (c : Computation) :
    c.word &&& (0b111 : Word) = (c.jump.map Jump.bits).getD 0 ∧
      c.word &&& (0b111000 : Word) = c.dest.bits <<< 3 := by
  have hcomp : ∀ comp ∈ Comp.all, (comp.bits <<< 6) &&& (0b111 : Word) = 0 ∧
      (comp.bits <<< 6) &&& (0b111000 : Word) = 0 := by decide +kernel
  have hdest : ∀ dest ∈ Dest.all, (dest.bits <<< 3) &&& (0b111 : Word) = 0 ∧
      (dest.bits <<< 3) &&& (0b111000 : Word) = dest.bits <<< 3 := by decide +kernel
  have hjump : ∀ jump ∈ Jump.all, jump.bits &&& (0b111 : Word) = jump.bits ∧
      jump.bits &&& (0b111000 : Word) = 0 := by decide +kernel
  obtain ⟨hc, hc'⟩ := hcomp c.comp (Comp.mem_all _)
  obtain ⟨hd, hd'⟩ := hdest c.dest (Dest.mem_all _)
  obtain ⟨hj, hj'⟩ :
      (c.jump.map Jump.bits).getD 0 &&& (0b111 : Word) = (c.jump.map Jump.bits).getD 0 ∧
      (c.jump.map Jump.bits).getD 0 &&& (0b111000 : Word) = 0 := by
    cases c.jump with
    | none => decide
    | some jump => exact hjump jump (Jump.mem_all jump)
  have hhead : (0xE000 : Word) &&& 0b111 = 0 ∧ (0xE000 : Word) &&& 0b111000 = 0 := by decide
  constructor
  · rw [word, Word.or_and, Word.or_and, Word.or_and, hc, hd, hj, hhead.1]
    simp
  · rw [word, Word.or_and, Word.or_and, Word.or_and, hc', hd', hj', hhead.2]
    simp

theorem isPlainJump_word (c : Computation) : Machine.isPlainJump c.word = c.isPlainJump := by
  have hjump : ((c.jump.map Jump.bits).getD 0 == 0b111) = (c.jump == some .always) := by
    cases c.jump with
    | none => decide
    | some jump => cases jump <;> decide
  have hdest : (c.dest.bits <<< 3 == 0) = (c.dest == Dest.nowhere) := by
    have checked : ∀ dest ∈ Dest.all, (dest.bits <<< 3 == 0) = (dest == Dest.nowhere) := by decide
    exact checked c.dest (Dest.mem_all _)
  rw [Machine.isPlainJump, c.word_and.1, c.word_and.2, hjump, hdest, isPlainJump]

theorem word_bit_fifteen (c : Computation) : c.word.bit 15 = true := by
  rw [word_bit, show (0xE000 : Word).bit 15 = true from by decide, Bool.true_or, Bool.true_or,
    Bool.true_or]

end Computation

end HackToolchain
