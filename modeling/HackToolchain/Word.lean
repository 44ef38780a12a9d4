/-!
# Words

The Hack computer works on words of sixteen bits. Sums wrap at 2 ^ 16; a word also stands for a
signed number in two's complement, whose sign is its bit 15.
-/

namespace HackToolchain

abbrev Word := UInt16

namespace Word

/-- Bit `i` of a word, counted from the least significant. -/
@[inline] def bit (w i : Word) : Bool :=
  (w >>> i) &&& 1 == 1

/-- The number that a word stands for in two's complement. -/
def signed (w : Word) : Int :=
  w.toBitVec.toInt

@[inline] def isNegative (w : Word) : Bool :=
  w.bit 15

end Word

end HackToolchain
