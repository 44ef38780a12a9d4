import HackToolchain.MachineCode
import HackToolchain.Text.Scan

/-!
# Machine code as text

In text a word is a line of sixteen digits `0` and `1`, the most significant first. Reading ignores
blank lines and blanks around a line. A line is first measured, then its digits are read from the
left, so a line of the wrong length is reported as such whatever it holds.
-/

namespace HackToolchain

inductive BinaryFault
  | wrongWidth (width : Nat)
  | notBinary (digit : Char)
  deriving Repr, DecidableEq

def BinaryFault.message (fault : Text.Numbered BinaryFault) : String :=
  match fault.value with
  | wrongWidth width => s!"line {fault.line}: expected 16 binary digits, found {width}"
  | notBinary digit => s!"line {fault.line}: invalid binary digit '{digit}'"

namespace Word

/-- The positions of a word's bits, the most significant first. -/
def bitPositions : List Word :=
  [15, 14, 13, 12, 11, 10, 9, 8, 7, 6, 5, 4, 3, 2, 1, 0]

def binaryDigits (w : Word) : List Char :=
  bitPositions.map fun i => if w.bit i then '1' else '0'

@[simp] theorem length_binaryDigits (w : Word) : w.binaryDigits.length = 16 := rfl

def isBinaryDigit (c : Char) : Bool :=
  c == '0' || c == '1'

def ofBinaryDigits (cs : List Char) : Word :=
  cs.foldl (fun w c => w <<< 1 ||| if c == '1' then 1 else 0) 0

/-- Reads a line of text: a word, nothing for a blank line, or a fault. -/
def readBinary (line : String) : Except BinaryFault (Option Word) :=
  let digits := Text.trim line.toList
  if digits.isEmpty then .ok none
  else if digits.length ≠ 16 then .error (.wrongWidth digits.length)
  else match digits.find? (!isBinaryDigit ·) with
    | some digit => .error (.notBinary digit)
    | none => .ok (some (ofBinaryDigits digits))

end Word

namespace MachineCode

def toText (code : MachineCode) : String :=
  String.ofList (code.words.toList.flatMap fun w => w.binaryDigits ++ ['\n'])

/-- The program that a text holds, or the first line that is no word. -/
def ofText (text : String) : Except (Text.Numbered BinaryFault) MachineCode :=
  (Text.scan Word.readBinary text).toExcept.map fun items =>
    ⟨(items.map Text.Numbered.value).toArray⟩

end MachineCode

end HackToolchain
