import HackToolchain.Word

/-!
# Machine code

A program for the Hack computer is a sequence of words, loaded into ROM from address 0.
-/

namespace HackToolchain

structure MachineCode where
  words : Array Word
  deriving Repr, DecidableEq

namespace MachineCode

def empty : MachineCode := ⟨#[]⟩

def size (code : MachineCode) : Nat :=
  code.words.size

def isEmpty (code : MachineCode) : Bool :=
  code.words.isEmpty

end MachineCode

end HackToolchain
