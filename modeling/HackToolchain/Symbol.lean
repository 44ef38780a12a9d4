import HackToolchain.MemoryMap

/-!
# Symbols

A symbol is a non-empty word of ASCII letters, ASCII digits and the marks `_`, `.`, `$` and `:` that
does not begin with a digit. A name of the stack machine is a symbol without the mark `$`, which is
kept for the symbols made from such names. Twenty-three symbols are predefined.
-/

namespace HackToolchain

namespace Symbol

def isSymbolChar (c : Char) : Bool :=
  c.isAlphanum || c == '_' || c == '.' || c == '$' || c == ':'

def isSymbolWord : List Char → Bool
  | [] => false
  | c :: cs => !c.isDigit && isSymbolChar c && cs.all isSymbolChar

def isSymbol (text : String) : Bool :=
  isSymbolWord text.toList

/-- Whether a text is a name: a symbol without the mark `$`. -/
def isName (text : String) : Bool :=
  isSymbol text && text.toList.all (· != '$')

theorem isSymbolWord_iff {cs : List Char} :
    isSymbolWord cs = true ↔
      cs ≠ [] ∧ (∀ c ∈ cs.head?, c.isDigit = false) ∧ ∀ c ∈ cs, isSymbolChar c = true := by
  cases cs with
  | nil => simp [isSymbolWord]
  | cons c cs => simp [isSymbolWord, and_assoc]

/-- The symbols `R0` to `R15` of the first sixteen cells. -/
def cellSymbols : List (String × Word) :=
  [("R0", 0), ("R1", 1), ("R2", 2), ("R3", 3), ("R4", 4), ("R5", 5), ("R6", 6), ("R7", 7),
   ("R8", 8), ("R9", 9), ("R10", 10), ("R11", 11), ("R12", 12), ("R13", 13), ("R14", 14),
   ("R15", 15)]

def predefined : List (String × Word) :=
  Pointer.all.map (fun pointer => (pointer.symbol, pointer.address)) ++ cellSymbols ++
    [("SCREEN", MemoryMap.screen), ("KBD", MemoryMap.keyboard)]

def predefined? (symbol : String) : Option Word :=
  predefined.lookup symbol

example : predefined.length = 23 := rfl

end Symbol

end HackToolchain
