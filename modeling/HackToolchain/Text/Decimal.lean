/-!
# Decimal numerals

A numeral is one or more of the digits `0` to `9`; leading zeros change nothing. `decimal?` gives
its value, of any size. `unsigned?` also takes one plus sign in front, and `unsignedBelow?` refuses a
value that does not fit below a bound.
-/

namespace HackToolchain

namespace Text

/-- The value of a numeral with one more digit at its end. -/
def appendDigit (value : Nat) (digit : Char) : Nat :=
  10 * value + (digit.toNat - '0'.toNat)

/-- The value of a list of digits, read after digits worth `start`. -/
def digitsValue (start : Nat) (cs : List Char) : Nat :=
  cs.foldl appendDigit start

@[simp] theorem digitsValue_nil (start : Nat) : digitsValue start [] = start := rfl

theorem digitsValue_cons (start : Nat) (c : Char) (cs : List Char) :
    digitsValue start (c :: cs) = digitsValue (appendDigit start c) cs := by
  simp only [digitsValue, List.foldl_cons]

theorem digitsValue_append (start : Nat) (cs ds : List Char) :
    digitsValue start (cs ++ ds) = digitsValue (digitsValue start cs) ds :=
  List.foldl_append

def isNumeral (cs : List Char) : Bool :=
  !cs.isEmpty && cs.all Char.isDigit

def decimal? (cs : List Char) : Option Nat :=
  if isNumeral cs then some (digitsValue 0 cs) else none

/-- The value of a numeral that may have a plus sign in front. -/
def unsigned? (cs : List Char) : Option Nat :=
  match cs with
  | '+' :: digits => decimal? digits
  | digits => decimal? digits

/-- The value of a numeral with an optional plus sign, if it is below `bound`. -/
def unsignedBelow? (bound : Nat) (cs : List Char) : Option Nat :=
  (unsigned? cs).filter (· < bound)

end Text

end HackToolchain
