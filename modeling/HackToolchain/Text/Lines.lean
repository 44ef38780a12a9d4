import HackToolchain.Text.Split

/-!
# Lines of a text

A line feed ends a line, and one carriage return directly before it belongs to the line ending. The
characters after the last line feed, if any, are a last line that nothing ends, so it keeps its
carriage return.
-/

namespace HackToolchain

namespace Text

/-- Drops one carriage return from the end of a line. -/
def dropReturn (cs : List Char) : List Char :=
  match cs.reverse with
  | '\r' :: rest => rest.reverse
  | _ => cs

@[simp] theorem dropReturn_nil : dropReturn [] = [] := rfl

@[simp] theorem dropReturn_append_return (cs : List Char) : dropReturn (cs ++ ['\r']) = cs := by
  simp [dropReturn]

theorem dropReturn_of_getLast?_ne {cs : List Char} (h : cs.getLast? ≠ some '\r') :
    dropReturn cs = cs := by
  unfold dropReturn
  split
  · next rest hrest => simp [← List.head?_reverse, hrest] at h
  · rfl

def isLineFeed (c : Char) : Bool :=
  c == '\n'

/-- The lines of a list of characters: each piece that a line feed ends, and the last piece unless
it is empty. -/
def linesOf (cs : List Char) : List (List Char) :=
  (pieces isLineFeed cs).dropLast.map dropReturn ++
    (pieces isLineFeed cs).getLast?.toList.filter (!·.isEmpty)

@[simp] theorem linesOf_nil : linesOf [] = [] := rfl

theorem linesOf_append_lineFeed (before after : List Char) :
    linesOf (before ++ '\n' :: after) =
      (pieces isLineFeed before).map dropReturn ++ linesOf after := by
  have hafter := pieces_ne_nil isLineFeed after
  have hcut := pieces_append_sep (show isLineFeed '\n' = true from rfl) before after
  simp only [linesOf, hcut, List.dropLast_append_of_ne_nil hafter, List.map_append,
    List.append_assoc]
  rw [List.getLast?_append, List.getLast?_eq_some_getLast hafter]
  rfl

def lines (text : String) : List String :=
  (linesOf text.toList).map String.ofList

end Text

end HackToolchain
