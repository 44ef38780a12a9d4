import HackToolchain.Proofs.Assembly.Execution
import HackToolchain.Proofs.Machine.Halting

/-!
# Where an image halts

A computer whose ROM is an image halts only at a plain jump, and only if the instruction before the
jump loads its own address. A label that is declared elsewhere is not the address of an instruction
that follows on another one.
-/

namespace HackToolchain

namespace Assembly

open Machine

def Statement.isPlainJump : Statement Computation → Bool
  | .instruction (.compute c) => c.isPlainJump
  | _ => false

/-- The statements before each plain jump. -/
def beforeJumps : List (Statement Computation) → List (List (Statement Computation))
  | [] => []
  | s :: rest => (if s.isPlainJump then [[]] else []) ++ (beforeJumps rest).map (s :: ·)

theorem beforeJumps_append (block rest : List (Statement Computation)) :
    beforeJumps (block ++ rest) = beforeJumps block ++ (beforeJumps rest).map (block ++ ·) := by
  induction block with
  | nil => simp [beforeJumps]
  | cons s block ih => simp [beforeJumps, ih]

theorem beforeJumps_eq_nil {block : List (Statement Computation)}
    (h : block.any Statement.isPlainJump = false) : beforeJumps block = [] := by
  induction block with
  | nil => rfl
  | cons s block ih =>
      rw [List.any_cons, Bool.or_eq_false_iff] at h
      simp [beforeJumps, h.1, ih h.2]

theorem beforeJumps_append_cons {head tail : List (Statement Computation)}
    {s : Statement Computation} (hhead : head.any Statement.isPlainJump = false)
    (hs : s.isPlainJump = true) (htail : tail.any Statement.isPlainJump = false) :
    beforeJumps (head ++ s :: tail) = [head] := by
  rw [beforeJumps_append, beforeJumps_eq_nil hhead]
  simp [beforeJumps, hs, beforeJumps_eq_nil htail]

theorem mem_beforeJumps_iff {block before : List (Statement Computation)} :
    before ∈ beforeJumps block ↔
      ∃ s rest, block = before ++ s :: rest ∧ s.isPlainJump = true := by
  constructor
  · intro h
    induction block generalizing before with
    | nil => simp [beforeJumps] at h
    | cons s block ih =>
        rw [beforeJumps, List.mem_append, List.mem_map] at h
        rcases h with h | ⟨before, hbefore, rfl⟩
        · split at h
          · next hs =>
              obtain rfl := List.mem_singleton.1 h
              exact ⟨s, block, rfl, hs⟩
          · simp at h
        · obtain ⟨s', rest, rfl, hs'⟩ := ih hbefore
          exact ⟨s', rest, rfl, hs'⟩
  · rintro ⟨s, rest, rfl, hs⟩
    rw [beforeJumps_append]
    simp [beforeJumps, hs]

theorem mem_beforeJumps_flatMap {α : Type} {xs : List α} {f : α → List (Statement Computation)}
    {before : List (Statement Computation)} (h : before ∈ beforeJumps (xs.flatMap f)) :
    ∃ k x head, xs[k]? = some x ∧ head ∈ beforeJumps (f x) ∧
      before = (xs.take k).flatMap f ++ head := by
  induction xs generalizing before with
  | nil => simp [beforeJumps] at h
  | cons x xs ih =>
      rw [List.flatMap_cons, beforeJumps_append, List.mem_append, List.mem_map] at h
      rcases h with hhead | ⟨rest, hrest, rfl⟩
      · exact ⟨0, x, before, rfl, hhead, rfl⟩
      · obtain ⟨k, y, head, hy, hhead, rfl⟩ := ih hrest
        exact ⟨k + 1, y, head, hy, hhead, by simp⟩

theorem label_mem_of_mem_labels {statements : List (Statement Computation)} {name : String}
    (h : name ∈ labels statements) : .label name ∈ statements := by
  obtain ⟨s, hs, hname⟩ := List.mem_filterMap.1 h
  cases s with
  | label other =>
      obtain rfl := Option.some.inj hname
      exact hs
  | instruction i => simp [Statement.label?] at hname

theorem exists_append_of_getElem?_code {statements : List (Statement Computation)} {n : Nat}
    {i : Instruction Computation} (h : (code statements)[n]? = some i) :
    ∃ before rest, statements = before ++ .instruction i :: rest ∧ codeSize before = n := by
  induction statements generalizing n with
  | nil => simp [code] at h
  | cons s statements ih =>
      cases s with
      | label name =>
          obtain ⟨before, rest, rfl, hsize⟩ := ih h
          exact ⟨.label name :: before, rest, rfl, hsize⟩
      | instruction j =>
          cases n with
          | zero =>
              obtain rfl : j = i := Option.some.inj h
              exact ⟨[], statements, rfl, rfl⟩
          | succ n =>
              obtain ⟨before, rest, rfl, hsize⟩ := ih h
              exact ⟨.instruction j :: before, rest, rfl, congrArg (· + 1) hsize⟩

namespace Image

variable {image : Image}

theorem toNat_address_ne {before rest : List (Statement Computation)} {i j : Instruction Computation}
    {name : String} (hname : name ∈ labels image.statements)
    (h : image.statements = before ++ .instruction i :: .instruction j :: rest) :
    (image.address name).toNat ≠ codeSize before + 1 := by
  obtain ⟨before', rest', hstatements⟩ := List.append_of_mem (label_mem_of_mem_labels hname)
  obtain ⟨before', hstatements, haddress⟩ := locates_declaration ⟨before', hstatements.symm⟩
  have hle : codeSize before' ≤ MemoryMap.romSize := by
    have hle := image.size_le
    rw [hstatements, codeSize_append] at hle
    omega
  rw [haddress, UInt16.toNat_ofNat_of_lt' (Nat.lt_of_le_of_lt hle (by decide))]
  rcases List.append_eq_append_iff.1 (hstatements.symm.trans h) with
    ⟨between, hbefore, -⟩ | ⟨between, hbefore, hrest⟩
  · -- the label is declared before both instructions
    rw [hbefore, codeSize_append]
    omega
  · rw [hbefore, codeSize_append]
    cases between with
    | nil => simp at hrest
    | cons s between =>
        cases between with
        | nil => simp at hrest
        | cons t between =>
            simp only [List.cons_append, List.cons.injEq] at hrest
            obtain ⟨rfl, rfl, -⟩ := hrest
            simp

theorem exists_instruction {n : Nat} {word : Word} (h : image.rom[n]? = some word) :
    ∃ i, (code image.statements)[n]? = some i ∧
      i.word? (address? image.statements) = some word := by
  have hword := congrArg (·[n]?) image.encoded
  simp only [List.getElem?_map, Array.getElem?_toList, h, Option.map_some] at hword
  exact Option.map_eq_some_iff.1 hword

/-- A computer halts at a plain jump if the instruction before it loads its own address. -/
theorem exists_beforeJumps_of_halted {cpu next : Cpu} (hrom : cpu.rom = image.rom)
    (h : cpu.step = (.ok .halted, next)) :
    ∃ before ∈ beforeJumps image.statements, ∃ operand,
      cpu.pc = .ofNat (codeSize before) ∧ (code before).getLast? = some (.address operand) ∧
        (image.value operand).toNat + 1 = codeSize before := by
  obtain ⟨word, hword, hbit, hplain, hcloses, -⟩ := Cpu.exists_word_of_step_halted h
  obtain ⟨hpos, ha, hself⟩ := Cpu.closesLoop_iff.1 hcloses
  rw [hrom] at hword hself
  obtain ⟨i, hi, hiword⟩ := exists_instruction hword
  obtain ⟨before, rest, hstatements, hsize⟩ := exists_append_of_getElem?_code hi
  have hlt := codeSize_lt hstatements
  have hromSize : MemoryMap.romSize = 32768 := rfl
  have hpos : 0 < cpu.pc.toNat := UInt16.lt_iff_toNat_lt.1 hpos
  have hone : (1 : Word) ≤ cpu.pc := UInt16.le_iff_toNat_le.2 hpos
  have hnat : cpu.a.toNat = codeSize before - 1 := by
    rw [ha, UInt16.toNat_sub_of_le _ _ hone, hsize]
    rfl
  have hbefore : before ∈ beforeJumps image.statements := by
    cases i with
    | address operand =>
        have hle : word.toNat ≤ 32767 := UInt16.le_iff_toNat_le.1 (value_of_word? hiword).2
        rw [Word.bit_fifteen, decide_eq_true_iff] at hbit
        omega
    | compute c =>
        obtain rfl : c.word = word := Option.some.inj hiword
        exact mem_beforeJumps_iff.2 ⟨_, rest, hstatements, c.isPlainJump_word.symm.trans hplain⟩
  obtain ⟨j, hj, hjword⟩ := exists_instruction hself
  have hlast : (code before).getLast? = some j := by
    rw [hnat, hstatements, code_append, List.getElem?_append_left] at hj
    · rw [List.getLast?_eq_getElem?]
      exact hj
    · change codeSize before - 1 < codeSize before
      omega
  cases j with
  | address operand =>
      refine ⟨before, hbefore, operand, ?_, hlast, ?_⟩
      · rw [hsize, UInt16.ofNat_toNat]
      · rw [(value_of_word? hjword).1, hnat]
        omega
  | compute c =>
      -- the word of the instruction would have bit 15, but it is an address in ROM
      obtain hcword : c.word = cpu.a := Option.some.inj hjword
      have hfifteen := c.word_bit_fifteen
      rw [hcword, Word.bit_fifteen, decide_eq_true_iff] at hfifteen
      omega

end Image

end Assembly

end HackToolchain
