import HackToolchain.Proofs.Assembly.Parts
import HackToolchain.Proofs.Assembly.Words
import HackToolchain.Proofs.Machine.Execution

/-!
# What a line of assembly does

The assembler turns a compute instruction into bits and the computer takes the bits apart again. Here
the two are put together: the word of a line does what the text of the line says. The text is read
once more, as arithmetic and logic on the words of D, A and the memory word.
-/

namespace HackToolchain

open Assembly Machine

/-- The word that an operand in a mnemonic stands for. -/
def operandValue? (a d m : Word) : Char → Option Word
  | '0' => some 0
  | '1' => some 1
  | 'A' => some a
  | 'D' => some d
  | 'M' => some m
  | _ => none

/-- The value of a mnemonic, read as arithmetic and logic on words. -/
def mnemonicValue? (a d m : Word) : List Char → Option Word
  | [x] => operandValue? a d m x
  | ['-', x] => return -(← operandValue? a d m x)
  | ['!', x] => return ~~~(← operandValue? a d m x)
  | [x, '+', y] => return (← operandValue? a d m x) + (← operandValue? a d m y)
  | [x, '-', y] => return (← operandValue? a d m x) - (← operandValue? a d m y)
  | [x, '&', y] => return (← operandValue? a d m x) &&& (← operandValue? a d m y)
  | [x, '|', y] => return (← operandValue? a d m x) ||| (← operandValue? a d m y)
  | _ => none

theorem mnemonicValue?_mnemonic (a d m : Word) (comp : Comp) :
    mnemonicValue? a d m comp.mnemonic.toList =
      some (comp.value d (if comp.readsMemory then m else a)) := by
  cases comp with
  | source s | notSource s | negSource s | incSource s | decSource s => cases s <;> rfl
  | add s | subSource s | subD s | and s | or s => cases s <;> rfl
  | _ => rfl

theorem readsMemory_eq (comp : Comp) : comp.readsMemory = decide ('M' ∈ comp.mnemonic.toList) := by
  cases comp with
  | source s | notSource s | negSource s | incSource s | decSource s => cases s <;> decide
  | add s | subSource s | subD s | and s | or s => cases s <;> decide
  | _ => decide

/-- A compute instruction on a line of a text that assembles is written as letters, a computation and
perhaps a jump, and a step on its word does what they say: the value of the mnemonic goes to the
places that the letters name, memory being written at the old A, the computer goes to the old A if the
value satisfies the condition of the jump, and nothing else changes but the count of cycles. -/
theorem step_of_compute_line {text line : String} {code : MachineCode} {before after : List String}
    {spelling : Spelling} (hcode : assemble text = .ok code)
    (hlines : Text.lines text = before ++ line :: after)
    (hline : statementOn? line = some (.instruction (.compute spelling))) :
    ∃ letters comp jump word,
      letters.Nodup ∧ (∀ c ∈ letters, c = 'A' ∨ c = 'D' ∨ c = 'M') ∧
      (Text.code line.toList).filter (!Text.isBlank ·) = writtenParts letters comp jump ∧
      code.words[(instructionsOn before).length]? = some word ∧
      ∀ cpu : Cpu, cpu.rom[cpu.pc.toNat]? = some word →
        ('M' ∈ letters ∨ 'M' ∈ comp.mnemonic.toList → cpu.a < 32768) →
        ∃ v status,
          mnemonicValue? cpu.a cpu.d (cpu.ram.read cpu.a) comp.mnemonic.toList = some v ∧
          cpu.step = (.ok status,
            { cpu with
              a := if 'A' ∈ letters then v else cpu.a
              d := if 'D' ∈ letters then v else cpu.d
              ram := if 'M' ∈ letters then cpu.ram.write cpu.a v else cpu.ram
              pc := if jump.any fun condition => condition.Holds v then cpu.a else cpu.pc + 1
              cycles := cpu.cycles + 1 }) := by
  obtain ⟨table, -, -, -, -, hencoded⟩ := exists_encode_of_assemble hcode
  obtain ⟨word, hword, hencode⟩ := hencoded _ _ (hlines ▸ getElem?_instructionsOn hline before after)
  obtain ⟨c, hresolve, rfl⟩ := exists_word_of_encode hencode
  obtain ⟨letters, hnamed, hwritten⟩ := exists_line_parts hline hresolve
  refine ⟨letters, c.comp, c.jump, c.word, hnamed.nodup, hnamed.subset, hwritten, hword,
    fun cpu hfetch hcell => ?_⟩
  have hmemory : c.usesMemory = true → Memory.contains cpu.a = true := by
    intro huses
    rw [Computation.usesMemory, readsMemory_eq, hnamed.m, Bool.or_eq_true, decide_eq_true_eq,
      decide_eq_true_eq] at huses
    exact decide_eq_true (Nat.le_of_lt_succ (hcell huses.symm))
  have hstep := Cpu.step_compute hfetch hmemory
  simp only [Cpu.advance, Core.store, hnamed.a, hnamed.d, hnamed.m, decide_eq_true_eq] at hstep
  exact ⟨cpu.core.out c.comp, _, mnemonicValue?_mnemonic _ _ _ _, hstep⟩

/-- A line with blanks inside that writes memory and register D and jumps, on a computer that holds
300, 2 and 5 in A, D and the memory word. -/
theorem step_of_compute_line_sum :
    ∃ code status next, assemble "@300\n M D = D + M ; J G T // sum" = .ok code ∧
      ({ Cpu.load code with a := 300, d := 2, pc := 1, ram := Memory.zero.write 300 5 } : Cpu).step =
        (.ok status, next) ∧
      next.d = 7 ∧ next.ram.read 300 = 7 ∧ next.a = 300 ∧ next.pc = 300 ∧ next.cycles = 1 := by
  obtain ⟨code, hcode, hword⟩ : ∃ code, assemble "@300\n M D = D + M ; J G T // sum" = .ok code ∧
      code.words[1]? = some 0xF099 :=
    ⟨⟨#[300, 0xF099]⟩, by decide +kernel, rfl⟩
  obtain ⟨letters, comp, jump, word, hnodup, hletters, hwritten, hfetch, hstep⟩ :=
    step_of_compute_line hcode
      (show _ = ["@300"] ++ " M D = D + M ; J G T // sum" :: [] by decide +kernel)
      (show statementOn? " M D = D + M ; J G T // sum" =
        some (.instruction (.compute ⟨some "MD", "D+M", some "JGT"⟩)) by decide +kernel)
  have hparts : writtenParts letters comp jump = writtenParts ['M', 'D'] (.add .m) (some .gt) :=
    hwritten.symm.trans (by decide +kernel)
  obtain ⟨rfl, rfl, rfl⟩ := writtenParts_inj hletters (by decide) hparts
  obtain rfl : (0xF099 : Word) = word := Option.some.inj (hword.symm.trans hfetch)
  obtain ⟨v, status, hv, hnext⟩ := hstep
    { Cpu.load code with a := 300, d := 2, pc := 1, ram := Memory.zero.write 300 5 } hword
    (fun _ => show (300 : Word) < 32768 by decide)
  have hread : (Memory.zero.write 300 5).read 300 = 5 := Memory.read_write_self (by decide) _ _
  obtain rfl : (7 : Word) = v := by
    have hsum : mnemonicValue? 300 2 5 "D+M".toList = some 7 := by decide
    rw [hread] at hv
    exact Option.some.inj (hsum.symm.trans hv)
  exact ⟨code, status, _, hcode, hnext, rfl, Memory.read_write_self (by decide) _ _, rfl, rfl, rfl⟩

end HackToolchain
