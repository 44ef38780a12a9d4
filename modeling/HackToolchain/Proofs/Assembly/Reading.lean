import HackToolchain.Proofs.Assembly.Link
import HackToolchain.Proofs.Text.Scan

/-!
# The statements on the lines of a text

A text that can be read is given by the statements on its lines, in order. A line that says nothing
has no statement. The instructions among the statements take up ROM one after another, so the number
of instructions on the lines before a line is the address at which it stands.
-/

namespace HackToolchain

namespace Assembly

open Text (Numbered)

def statementOn? (line : String) : Option (Statement Spelling) :=
  (readStatement line).toOption.join

def statementsOn (ls : List String) : List (Statement Spelling) :=
  ls.filterMap statementOn?

@[simp] theorem statementsOn_nil : statementsOn [] = [] := rfl

theorem statementsOn_cons (line : String) (ls : List String) :
    statementsOn (line :: ls) = (statementOn? line).toList ++ statementsOn ls := by
  rw [statementsOn, List.filterMap_cons]
  cases statementOn? line <;> rfl

@[simp] theorem statementsOn_append (before after : List String) :
    statementsOn (before ++ after) = statementsOn before ++ statementsOn after :=
  List.filterMap_append

/-- A line with a statement splits the statements of the lines around it. -/
theorem statementsOn_append_cons {line : String} {s : Statement Spelling}
    (h : statementOn? line = some s) (before after : List String) :
    statementsOn (before ++ line :: after) = statementsOn before ++ s :: statementsOn after := by
  rw [statementsOn_append, statementsOn_cons, h]
  rfl

theorem mem_labels_statementsOn {name : String} {ls : List String} :
    name ∈ labels (statementsOn ls) ↔ ∃ line ∈ ls, statementOn? line = some (.label name) := by
  simp only [labels, statementsOn, List.mem_filterMap]
  constructor
  · rintro ⟨s, ⟨line, hline, hs⟩, hname⟩
    cases s with
    | instruction i => simp [Statement.label?] at hname
    | label other =>
        obtain rfl : other = name := Option.some.inj hname
        exact ⟨line, hline, hs⟩
  · rintro ⟨line, hline, hs⟩
    exact ⟨.label name, ⟨line, hline, hs⟩, rfl⟩

def instructionsOn (ls : List String) : List (Instruction Spelling) :=
  code (statementsOn ls)

/-- The instruction on a line is the one at the address at which the line stands. -/
theorem getElem?_instructionsOn {line : String} {i : Instruction Spelling}
    (h : statementOn? line = some (.instruction i)) (before after : List String) :
    (instructionsOn (before ++ line :: after))[(instructionsOn before).length]? = some i := by
  rw [instructionsOn, statementsOn_append_cons h, code_append, instructionsOn,
    List.getElem?_append_right (Nat.le_refl _), Nat.sub_self]
  rfl

theorem values_of_scanLines {first : Nat} {ls : List String}
    {statements : List (Numbered (Statement Spelling))}
    (h : Text.scanLines readStatement first ls = ⟨statements, none⟩) :
    values statements = statementsOn ls := by
  have hitems := Text.map_value_items_scanLines (congrArg Text.Scan.fault? h)
  rw [h] at hitems
  exact hitems

theorem scanLines_of_readText {text : String} {statements : List (Numbered (Statement Spelling))}
    (h : readText text = .ok statements) :
    Text.scanLines readStatement 1 (Text.lines text) = ⟨statements, none⟩ := by
  rw [readText, Text.scan] at h
  generalize Text.scanLines readStatement 1 (Text.lines text) = found at h
  obtain ⟨items, fault?⟩ := found
  cases fault? with
  | none =>
      obtain rfl : items = statements := Except.ok.inj h
      rfl
  | some fault => simp [Text.Scan.toExcept] at h

theorem values_of_readText {text : String} {statements : List (Numbered (Statement Spelling))}
    (h : readText text = .ok statements) : values statements = statementsOn (Text.lines text) :=
  values_of_scanLines (scanLines_of_readText h)

theorem readStatement_of_statementOn? {line : String} {s : Statement Spelling}
    (h : statementOn? line = some s) : readStatement line = .ok (some s) :=
  eq_ok_of_join_toOption h

theorem statementOn?_of_readStatement {line : String} {s : Statement Spelling}
    (h : readStatement line = .ok (some s)) : statementOn? line = some s := by
  rw [statementOn?, h]
  rfl

theorem mem_instructionsOn {i : Instruction Spelling} {ls : List String} :
    i ∈ instructionsOn ls ↔ ∃ line ∈ ls, statementOn? line = some (.instruction i) := by
  simp only [instructionsOn, code, statementsOn, List.mem_filterMap]
  constructor
  · rintro ⟨s, ⟨line, hline, hs⟩, hi⟩
    cases s with
    | label name => simp [Statement.instruction?] at hi
    | instruction other =>
        obtain rfl : other = i := Option.some.inj hi
        exact ⟨line, hline, hs⟩
  · rintro ⟨line, hline, hs⟩
    exact ⟨.instruction i, ⟨line, hline, hs⟩, rfl⟩

end Assembly

end HackToolchain
