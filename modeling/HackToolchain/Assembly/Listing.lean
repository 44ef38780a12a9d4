import HackToolchain.Assembly.Statement

/-!
# Listings

A listing is a sequence of lines of assembly, kept as text. Generated code is built from lines that
are known to be a comment or a statement, and `Line.render` writes them. An instruction is a line that
is neither a comment nor a label, so the instructions of a listing can be counted without reading it.
-/

namespace HackToolchain

namespace Assembly

inductive Line
  | comment (text : String)
  | statement (statement : Statement Computation)
  deriving Repr, DecidableEq

def Line.render : Line → String
  | comment text => "// " ++ text
  | statement s => s.render

structure Listing where
  lines : Array String
  deriving Repr, DecidableEq

namespace Listing

def empty : Listing := ⟨#[]⟩

def ofLines (lines : Array Line) : Listing :=
  ⟨lines.map Line.render⟩

def push (listing : Listing) (line : String) : Listing :=
  ⟨listing.lines.push line⟩

def append (listing : Listing) (lines : List String) : Listing :=
  ⟨listing.lines ++ lines⟩

def size (listing : Listing) : Nat :=
  listing.lines.size

def isEmpty (listing : Listing) : Bool :=
  listing.lines.isEmpty

/-- Whether a line is neither a comment nor a label. -/
def isInstruction : List Char → Bool
  | '/' :: '/' :: _ => false
  | '(' :: _ => false
  | _ => true

def instructionCount (listing : Listing) : Nat :=
  listing.lines.countP fun line => isInstruction line.toList

/-- The text of a listing: each line is ended by a line feed. -/
def toText (listing : Listing) : String :=
  listing.lines.toList.foldl (fun text line => text ++ line ++ "\n") ""

theorem toList_foldl_lines (ls : List String) (text : String) :
    (ls.foldl (fun text line => text ++ line ++ "\n") text).toList =
      text.toList ++ ls.flatMap fun line => line.toList ++ ['\n'] := by
  induction ls generalizing text with
  | nil => simp
  | cons l ls ih => simp [ih]

theorem toList_toText (listing : Listing) :
    listing.toText.toList = listing.lines.toList.flatMap fun line => line.toList ++ ['\n'] := by
  rw [toText, toList_foldl_lines, String.toList_empty, List.nil_append]

theorem append_append (listing : Listing) (first second : List String) :
    (listing.append first).append second = listing.append (first ++ second) := by
  simp only [append, mk.injEq]
  rw [← Array.toList_inj]
  simp only [Array.toList_appendList, List.append_assoc]

theorem ofLines_toArray (lines : List Line) :
    ofLines lines.toArray = empty.append (lines.map Line.render) := by
  simp [ofLines, append, empty]

end Listing

end Assembly

end HackToolchain
