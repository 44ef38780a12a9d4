import HackToolchain.Word

/-!
# What an instruction computes

The first operand of the arithmetic unit is register D; the second, here called the source, is
register A or the memory word that A points to, written `M`. There are twenty-eight computations.
Each has a mnemonic, seven bits (the choice of the source, then the six control bits of the
arithmetic unit) and a value: the arithmetic or logic on words that its mnemonic shows.
-/

namespace HackToolchain

inductive Source
  | a
  | m
  deriving Repr, DecidableEq

def Source.letter : Source → String
  | a => "A"
  | m => "M"

/-- The bit that chooses the source, in front of the six control bits. -/
def Source.bit : Source → Word
  | a => 0
  | m => 64

/-- The computations. Those named for `source` take the second operand. -/
inductive Comp
  | zero
  | one
  | minusOne
  | d
  | source (s : Source)
  | notD
  | notSource (s : Source)
  | negD
  | negSource (s : Source)
  | incD
  | incSource (s : Source)
  | decD
  | decSource (s : Source)
  | add (s : Source)
  | subSource (s : Source)
  | subD (s : Source)
  | and (s : Source)
  | or (s : Source)
  deriving Repr, DecidableEq

namespace Comp

def mnemonic : Comp → String
  | zero => "0"
  | one => "1"
  | minusOne => "-1"
  | d => "D"
  | source s => s.letter
  | notD => "!D"
  | notSource s => "!" ++ s.letter
  | negD => "-D"
  | negSource s => "-" ++ s.letter
  | incD => "D+1"
  | incSource s => s.letter ++ "+1"
  | decD => "D-1"
  | decSource s => s.letter ++ "-1"
  | add s => "D+" ++ s.letter
  | subSource s => "D-" ++ s.letter
  | subD s => s.letter ++ "-D"
  | and s => "D&" ++ s.letter
  | or s => "D|" ++ s.letter

def bits : Comp → Word
  | zero => 0b101010
  | one => 0b111111
  | minusOne => 0b111010
  | d => 0b001100
  | source s => s.bit ||| 0b110000
  | notD => 0b001101
  | notSource s => s.bit ||| 0b110001
  | negD => 0b001111
  | negSource s => s.bit ||| 0b110011
  | incD => 0b011111
  | incSource s => s.bit ||| 0b110111
  | decD => 0b001110
  | decSource s => s.bit ||| 0b110010
  | add s => s.bit ||| 0b000010
  | subSource s => s.bit ||| 0b010011
  | subD s => s.bit ||| 0b000111
  | and s => s.bit ||| 0b000000
  | or s => s.bit ||| 0b010101

/-- The value of a computation on the word of register D and the word of the source. -/
def value (dWord sourceWord : Word) : Comp → Word
  | zero => 0
  | one => 1
  | minusOne => -1
  | d => dWord
  | source _ => sourceWord
  | notD => ~~~dWord
  | notSource _ => ~~~sourceWord
  | negD => -dWord
  | negSource _ => -sourceWord
  | incD => dWord + 1
  | incSource _ => sourceWord + 1
  | decD => dWord - 1
  | decSource _ => sourceWord - 1
  | add _ => dWord + sourceWord
  | subSource _ => dWord - sourceWord
  | subD _ => sourceWord - dWord
  | and _ => dWord &&& sourceWord
  | or _ => dWord ||| sourceWord

def readsMemory : Comp → Bool
  | source s | notSource s | negSource s | incSource s | decSource s => s == .m
  | add s | subSource s | subD s | and s | or s => s == .m
  | _ => false

/-- All computations: first those without a memory word, then those with one. -/
def all : List Comp :=
  [zero, one, minusOne, d, source .a, notD, notSource .a, negD, negSource .a, incD, incSource .a,
   decD, decSource .a, add .a, subSource .a, subD .a, and .a, or .a, source .m, notSource .m,
   negSource .m, incSource .m, decSource .m, add .m, subSource .m, subD .m, and .m, or .m]

theorem mem_all (c : Comp) : c ∈ all := by
  cases c with
  | source s | notSource s | negSource s | incSource s | decSource s => cases s <;> decide
  | add s | subSource s | subD s | and s | or s => cases s <;> decide
  | _ => decide

def ofMnemonic? (text : String) : Option Comp :=
  all.find? (·.mnemonic == text)

example : all.length = 28 := rfl

end Comp

end HackToolchain
