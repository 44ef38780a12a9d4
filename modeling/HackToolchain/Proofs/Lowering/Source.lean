import HackToolchain.Proofs.Text.Scan
import HackToolchain.Proofs.Vm.Written

/-!
# The commands on the lines of a unit

A line of a unit is rejected if what it says, its comment dropped and trimmed, is not empty and no
command. A unit in which no line is rejected has the commands on its lines, and it has the same
commands when its text is written anew with one command on each line. What a program is depends on
the names and the commands of its units only.
-/

namespace HackToolchain

namespace Lowering

open Vm
open Assembly hiding Fault

theorem readLine_of_code_eq_nil {line : String} (h : Text.code line.toList = []) :
    readLine line = .ok none := by
  rw [readLine, h]

theorem readLine_of_code_ne_nil {line : String} (h : Text.code line.toList ≠ []) :
    readLine line = (readCommand (String.ofList (Text.code line.toList))).map some := by
  rw [readLine]
  split
  · next hnil => exact absurd hnil h
  · rfl

/-- A line says something that is no command. -/
def IsRejected (line : String) (fault : Fault) : Prop :=
  Text.code line.toList ≠ [] ∧ readCommand (String.ofList (Text.code line.toList)) = .error fault

theorem readLine_eq_error_iff {line : String} {fault : Fault} :
    readLine line = .error fault ↔ IsRejected line fault := by
  rw [IsRejected]
  by_cases h : Text.code line.toList = []
  · simp [readLine_of_code_eq_nil h, h]
  · rw [readLine_of_code_ne_nil h]
    cases readCommand (String.ofList (Text.code line.toList)) <;> simp [Except.map, h]

theorem exists_readLine_iff {line : String} :
    (∃ found, readLine line = .ok found) ↔ ∀ fault, ¬IsRejected line fault := by
  simp only [← readLine_eq_error_iff]
  cases readLine line <;> simp

theorem readLine_text {command : Command} (h : command.defect? = none) :
    readLine command.text = .ok (some command) := by
  have hcode := Command.code_text h
  have hread := readCommand_text_iff.2 h
  have hne : Text.code command.text.toList ≠ [] := by
    rw [hcode]
    intro hnil
    rw [String.toList_eq_nil_iff.1 hnil] at hread
    exact absurd hread (by simp [readCommand, fields])
  rw [readLine_of_code_ne_nil hne, hcode, String.ofList_toList, hread]
  rfl

/-- The command on a line, if what the line says is one. -/
def commandOn? (line : String) : Option Command :=
  if Text.code line.toList = [] then none
  else (readCommand (String.ofList (Text.code line.toList))).toOption

theorem commandOn?_eq_some_iff {line : String} {command : Command} :
    commandOn? line = some command ↔ readLine line = .ok (some command) := by
  rw [commandOn?]
  split
  · next hnil => simp [readLine_of_code_eq_nil hnil]
  · next hne =>
      rw [readLine_of_code_ne_nil hne]
      cases readCommand (String.ofList (Text.code line.toList)) <;>
        simp [Except.map, Except.toOption]

theorem join_toOption_readLine (line : String) :
    (readLine line).toOption.join = commandOn? line := by
  refine Option.ext fun command => ⟨fun h => ?_, fun h => ?_⟩
  · exact commandOn?_eq_some_iff.2 (eq_ok_of_join_toOption h)
  · rw [commandOn?_eq_some_iff.1 h]
    rfl

namespace SourceUnit

def source (unit : SourceUnit) : List Command :=
  (Text.lines unit.text).filterMap commandOn?

/-- A unit with the same commands, each on a line of its own in its written form. -/
def rewritten (unit : SourceUnit) : SourceUnit where
  name := unit.name
  text := String.ofList (unit.source.flatMap fun command => command.text.toList ++ ['\n'])

@[simp] theorem name_rewritten (unit : SourceUnit) : unit.rewritten.name = unit.name := by
  rw [rewritten]

variable {unit : SourceUnit}

theorem isValid_iff : unit.IsValid ↔ Symbol.isName unit.name = true ∧
    ∀ line ∈ Text.lines unit.text, ∀ fault, ¬IsRejected line fault := by
  have hfault : unit.scan.fault? = none ↔
      ∀ line ∈ Text.lines unit.text, ∃ found, readLine line = .ok found :=
    Text.fault?_scanLines_eq_none_iff
  simp only [← exists_readLine_iff, ← hfault]
  exact ⟨fun h => ⟨h.name, h.fault⟩, fun h => ⟨h.1, h.2⟩⟩

theorem commands_eq_source (h : unit.IsValid) : unit.commands = unit.source := by
  rw [source, ← funext join_toOption_readLine]
  exact Text.map_value_items_scanLines h.fault

theorem defect?_of_mem_source {command : Command} (h : command ∈ unit.source) :
    command.defect? = none := by
  obtain ⟨line, -, hline⟩ := List.mem_filterMap.1 h
  exact defect?_of_readLine (commandOn?_eq_some_iff.1 hline)

theorem lines_rewritten (unit : SourceUnit) :
    Text.lines unit.rewritten.text = unit.source.map Command.text := by
  have hflat : (unit.source.flatMap fun command => command.text.toList ++ ['\n']) =
      (unit.source.map fun command => command.text.toList).flatMap fun l => l ++ ['\n'] := by
    rw [List.flatMap_map]
  rw [Text.lines, rewritten, String.toList_ofList, hflat, Text.linesOf_flatMap_lineFeed,
    List.map_map]
  · exact List.map_congr_left fun command _ => String.ofList_toList
  · intro l hl
    obtain ⟨command, hcommand, rfl⟩ := List.mem_map.1 hl
    exact isInline_text (defect?_of_mem_source hcommand)

theorem source_rewritten (unit : SourceUnit) : unit.rewritten.source = unit.source := by
  have hread : ∀ command ∈ unit.source, (commandOn? ∘ Command.text) command = some command := by
    exact fun command hcommand =>
      commandOn?_eq_some_iff.2 (readLine_text (defect?_of_mem_source hcommand))
  rw [source, lines_rewritten, List.filterMap_map, List.filterMap_congr hread, List.filterMap_some]

theorem isValid_rewritten (h : Symbol.isName unit.name = true) : unit.rewritten.IsValid := by
  rw [isValid_iff, name_rewritten, lines_rewritten]
  refine ⟨h, fun line hline fault => ?_⟩
  obtain ⟨command, hcommand, rfl⟩ := List.mem_map.1 hline
  rw [← readLine_eq_error_iff, readLine_text (defect?_of_mem_source hcommand)]
  simp

end SourceUnit

/-- What a unit contributes to a program. -/
def SourceUnit.content (unit : SourceUnit) : String × List Command :=
  (unit.name, unit.source)

theorem placeUnits_congr {units others : List SourceUnit} (context : Context)
    (hunits : ∀ unit ∈ units, unit.IsValid) (hothers : ∀ unit ∈ others, unit.IsValid)
    (h : others.map SourceUnit.content = units.map SourceUnit.content) :
    placeUnits context others = placeUnits context units ∧
      context.afterUnits others = context.afterUnits units := by
  induction units generalizing context others with
  | nil =>
      obtain rfl : others = [] := by simpa using h
      exact ⟨rfl, rfl⟩
  | cons unit rest ih =>
      obtain ⟨other, others, rfl, hcontent, hrest⟩ := List.map_eq_cons_iff.1 h
      obtain ⟨hunit, hunits⟩ := List.forall_mem_cons.1 hunits
      obtain ⟨hother, hothers⟩ := List.forall_mem_cons.1 hothers
      obtain ⟨hname, hsource⟩ := Prod.mk.inj hcontent
      rw [← SourceUnit.commands_eq_source hunit, ← SourceUnit.commands_eq_source hother] at hsource
      obtain ⟨hplaced, hcontext⟩ :=
        ih ((context.enterUnit unit.name).afterAll unit.commands) hunits hothers hrest
      simp only [placeUnits, Context.afterUnits, List.foldl_cons, hname, hsource] at hcontext ⊢
      exact ⟨congrArg _ hplaced, hcontext⟩

theorem Program.ofUnits_congr {config : Config} {units others : List SourceUnit}
    (hunits : ∀ unit ∈ units, unit.IsValid) (hothers : ∀ unit ∈ others, unit.IsValid)
    (h : others.map SourceUnit.content = units.map SourceUnit.content) :
    ofUnits config others = ofUnits config units := by
  obtain ⟨hplaced, hcontext⟩ := placeUnits_congr (initialContext config) hunits hothers h
  rw [ofUnits, ofUnits, hplaced, hcontext]

end Lowering

end HackToolchain
