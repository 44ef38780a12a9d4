import Mathlib.Data.String.Basic

/-!
# The order of texts by bytes

Texts are compared character by character. A character with a smaller code point has an encoding that
comes first, whatever follows, so the bytes of texts are in the same order as the texts.
-/

namespace HackToolchain

namespace Text

def bytes (text : String) : List UInt8 :=
  text.toUTF8.data.toList

end Text

end HackToolchain
