import HackToolchain.Word

/-!
# Where an instruction writes

A destination is a set of the registers A and D and the memory word M. Its spelling is a non-empty
word of distinct letters from `A`, `D` and `M` in any order; a set that is not empty is written
here in the order A, M, D.
-/

namespace HackToolchain

structure Dest where
  a : Bool
  d : Bool
  m : Bool
  deriving Repr, DecidableEq

namespace Dest

def nowhere : Dest := ⟨false, false, false⟩

/-- The three bits of a destination: A, D and M. -/
def bits (dest : Dest) : Word :=
  (if dest.a then 0b100 else 0) ||| (if dest.d then 0b010 else 0) ||| (if dest.m then 0b001 else 0)

def letters (dest : Dest) : List Char :=
  (if dest.a then ['A'] else []) ++ (if dest.m then ['M'] else []) ++ (if dest.d then ['D'] else [])

def mnemonic (dest : Dest) : String :=
  String.ofList dest.letters

/-- Adds one more letter to a destination that does not have it yet. -/
def insert? (dest : Dest) : Char → Option Dest
  | 'A' => if dest.a then none else some { dest with a := true }
  | 'D' => if dest.d then none else some { dest with d := true }
  | 'M' => if dest.m then none else some { dest with m := true }
  | _ => none

def ofLetters? (cs : List Char) : Option Dest :=
  if cs.isEmpty then none else cs.foldlM insert? nowhere

def ofMnemonic? (text : String) : Option Dest :=
  ofLetters? text.toList

/-- The spelling of a destination that writes something reads back. -/
theorem ofLetters?_letters {dest : Dest} (h : dest ≠ nowhere) :
    ofLetters? dest.letters = some dest := by
  revert h
  obtain ⟨a, d, m⟩ := dest
  cases a <;> cases d <;> cases m <;> decide

end Dest

end HackToolchain
