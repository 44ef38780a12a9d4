import HackToolchain.Word

/-!
# When an instruction jumps

A jump compares the computed word, as a signed number, with zero. Its three bits say whether to jump
below, at and above zero.
-/

namespace HackToolchain

/-- The seven conditions under which an instruction jumps. -/
inductive Jump
  | gt
  | eq
  | ge
  | lt
  | ne
  | le
  | always
  deriving Repr, DecidableEq

namespace Jump

def mnemonic : Jump → String
  | gt => "JGT"
  | eq => "JEQ"
  | ge => "JGE"
  | lt => "JLT"
  | ne => "JNE"
  | le => "JLE"
  | always => "JMP"

/-- The three bits of a condition: below, at and above zero. -/
def bits : Jump → Word
  | gt => 0b001
  | eq => 0b010
  | ge => 0b011
  | lt => 0b100
  | ne => 0b101
  | le => 0b110
  | always => 0b111

/-- The relation of a computed word to zero that a condition asks for. -/
def Holds (out : Word) : Jump → Prop
  | gt => 0 < out.signed
  | eq => out.signed = 0
  | ge => 0 ≤ out.signed
  | lt => out.signed < 0
  | ne => out.signed ≠ 0
  | le => out.signed ≤ 0
  | always => True

instance (out : Word) (jump : Jump) : Decidable (jump.Holds out) := by
  cases jump <;> unfold Holds <;> infer_instance

/-- All conditions, by their bits. -/
def all : List Jump :=
  [gt, eq, ge, lt, ne, le, always]

theorem mem_all (jump : Jump) : jump ∈ all := by
  cases jump <;> decide

def ofMnemonic? (text : String) : Option Jump :=
  all.find? (·.mnemonic == text)

end Jump

end HackToolchain
