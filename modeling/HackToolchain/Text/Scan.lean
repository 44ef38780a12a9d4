import HackToolchain.Text.Lines

/-!
# Reading a text line by line

A reader of one line answers with an item, with nothing (a line that says nothing), or with a fault.
`scan` reads the lines of a text in order and stops at the first fault: it keeps the items found
before, each with the number of its line counted from one, and the fault with the number of its own.
-/

namespace HackToolchain

namespace Text

/-- A value with the number of the line that it belongs to. -/
structure Numbered (α : Type) where
  line : Nat
  value : α
  deriving Repr, DecidableEq

/-- What reading a text found: the items before the first fault, and that fault. -/
structure Scan (ε α : Type) where
  items : List (Numbered α)
  fault? : Option (Numbered ε)

namespace Scan

variable {ε α : Type}

def empty : Scan ε α :=
  ⟨[], none⟩

/-- Puts the reading of one line in front of the reading of the lines after it. A fault hides all
that comes later. -/
def prepend (line : Nat) (result : Except ε (Option α)) (later : Scan ε α) : Scan ε α :=
  match result with
  | .error fault => ⟨[], some ⟨line, fault⟩⟩
  | .ok none => later
  | .ok (some item) => ⟨⟨line, item⟩ :: later.items, later.fault?⟩

/-- All the items, or the fault that stopped the reading. -/
def toExcept (scan : Scan ε α) : Except (Numbered ε) (List (Numbered α)) :=
  match scan.fault? with
  | some fault => .error fault
  | none => .ok scan.items

end Scan

variable {ε α : Type}

/-- Reads lines of which the first has the number `first`. -/
def scanLines (read : String → Except ε (Option α)) (first : Nat) (ls : List String) : Scan ε α :=
  (ls.zipIdx first).foldr (fun entry later => later.prepend entry.2 (read entry.1)) .empty

@[simp] theorem scanLines_nil (read : String → Except ε (Option α)) (first : Nat) :
    scanLines read first [] = .empty := rfl

theorem scanLines_cons (read : String → Except ε (Option α)) (first : Nat) (l : String)
    (ls : List String) :
    scanLines read first (l :: ls) =
      (scanLines read (first + 1) ls).prepend first (read l) := rfl

def scan (read : String → Except ε (Option α)) (text : String) : Scan ε α :=
  scanLines read 1 (lines text)

end Text

end HackToolchain
