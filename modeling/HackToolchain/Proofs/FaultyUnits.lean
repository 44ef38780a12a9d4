import Mathlib.Data.List.TakeWhile
import HackToolchain.Proofs.Lowering.Source
import HackToolchain.Proofs.Text.FirstLines

/-!
# What faulty units leave behind

Units can be added to a draft after one of them had a fault. A unit without a valid name leaves the
draft as it is. Any other faulty unit leaves the commands on the lines before its first rejected
line, with the numbers that they drew and the function that they declared last. So the draft is the
one that units without a fault would have made: those that remain when the unnamed units are dropped
and each text ends before its first rejected line.
-/

namespace HackToolchain

open Vm Lowering
open Assembly hiding Fault

namespace Lowering

namespace SourceUnit

inductive HasFault (unit : SourceUnit) : UnitFault → Prop
  /-- Its name is not valid, which is a fault of none of its lines. -/
  | unnamed (h : Symbol.isName unit.name = false) :
      HasFault unit ⟨unit.name, 0, .invalidUnitName unit.name⟩
  /-- A line of it is rejected, and no line before that one is. -/
  | rejected {before after : List String} {line : String} {fault : Fault}
      (hname : Symbol.isName unit.name = true)
      (hlines : Text.lines unit.text = before ++ line :: after)
      (hbefore : ∀ l ∈ before, ∀ f, ¬IsRejected l f) (h : IsRejected line fault) :
      HasFault unit ⟨unit.name, before.length + 1, fault⟩

def acceptedLines (unit : SourceUnit) : List String :=
  (Text.lines unit.text).takeWhile (Text.isReadable readLine)

/-- A unit with a valid name, with its text cut off before the first line that is rejected. -/
def repaired? (unit : SourceUnit) : Option SourceUnit :=
  if Symbol.isName unit.name then
    some ⟨unit.name, String.ofList (Text.firstLines unit.acceptedLines.length unit.text.toList)⟩
  else none

variable {unit : SourceUnit}

/-- The fault of the lines of a unit is that of the first line that is rejected. -/
theorem fault?_scan_eq_some_iff {fault : Text.Numbered Fault} :
    unit.scan.fault? = some fault ↔ ∃ before line after,
      Text.lines unit.text = before ++ line :: after ∧ fault.line = before.length + 1 ∧
        (∀ l ∈ before, ∀ f, ¬IsRejected l f) ∧ IsRejected line fault.value := by
  constructor
  · intro h
    obtain ⟨before, line, after, hlines, hnumber, hline, hbefore⟩ :=
      Text.exists_of_fault?_scanLines h
    exact ⟨before, line, after, hlines, hnumber.trans (Nat.add_comm _ _),
      fun l hl => exists_readLine_iff.1 (hbefore l hl), readLine_eq_error_iff.1 hline⟩
  · rintro ⟨before, line, after, hlines, hnumber, hbefore, hline⟩
    have hread : ∀ l ∈ before, ∃ found, readLine l = .ok found :=
      fun l hl => exists_readLine_iff.2 (hbefore l hl)
    rw [scan, Text.scan, hlines,
      Text.fault?_scanLines_append_cons hread (readLine_eq_error_iff.2 hline), Nat.add_comm,
      ← hnumber]

theorem hasFault_iff_of_isName (h : Symbol.isName unit.name = true) {fault : UnitFault} :
    unit.HasFault fault ↔
      ∃ found, unit.scan.fault? = some found ∧ ⟨unit.name, found.line, found.value⟩ = fault := by
  constructor
  · rintro (hname | ⟨-, hlines, hbefore, hline⟩)
    · simp [h] at hname
    · exact ⟨⟨_, _⟩, fault?_scan_eq_some_iff.2 ⟨_, _, _, hlines, rfl, hbefore, hline⟩, rfl⟩
  · rintro ⟨⟨number, value⟩, hfound, rfl⟩
    obtain ⟨before, line, after, hlines, rfl, hbefore, hline⟩ := fault?_scan_eq_some_iff.1 hfound
    exact .rejected h hlines hbefore hline

theorem hasFault_iff_of_not_isName (h : Symbol.isName unit.name = false) {fault : UnitFault} :
    unit.HasFault fault ↔ ⟨unit.name, 0, .invalidUnitName unit.name⟩ = fault := by
  constructor
  · rintro (- | ⟨hname⟩)
    · rfl
    · simp [h] at hname
  · rintro rfl
    exact .unnamed h

theorem isValid_iff_not_hasFault : unit.IsValid ↔ ∀ fault, ¬unit.HasFault fault := by
  cases hname : Symbol.isName unit.name with
  | false =>
      have hinvalid : ¬unit.IsValid := fun h => by simp [h.name] at hname
      simp [hasFault_iff_of_not_isName hname, hinvalid]
  | true =>
      have hvalid : unit.IsValid ↔ unit.scan.fault? = none := ⟨(·.fault), fun h => ⟨hname, h⟩⟩
      simp [hasFault_iff_of_isName hname, hvalid, Option.eq_none_iff_forall_ne_some]

/-- A repaired unit is a unit with a valid name, cut off at the end of a line. Its lines are those
before the first one that is rejected. -/
theorem of_repaired? {repaired : SourceUnit} (h : unit.repaired? = some repaired) :
    Symbol.isName unit.name = true ∧ repaired.name = unit.name ∧
      repaired.text.toList <+: unit.text.toList ∧ Text.lines repaired.text = unit.acceptedLines := by
  rw [repaired?] at h
  split at h
  · next hname =>
      obtain rfl := Option.some.inj h
      have haccepted : unit.acceptedLines <+: Text.lines unit.text := List.takeWhile_prefix _
      refine ⟨hname, rfl, ?_, ?_⟩
      · rw [String.toList_ofList]
        exact Text.firstLines_prefix _ _
      · rw [Text.lines, String.toList_ofList, Text.linesOf_firstLines, List.map_take]
        exact (List.prefix_iff_eq_take.1 haccepted).symm
  · exact absurd h (Option.some_ne_none repaired).symm

theorem scan_of_repaired? {repaired : SourceUnit} (h : unit.repaired? = some repaired) :
    repaired.scan = ⟨unit.scan.items, none⟩ := by
  obtain ⟨-, -, -, hlines⟩ := of_repaired? h
  rw [scan, Text.scan, hlines]
  exact Text.scanLines_takeWhile 1 _

theorem repaired?_eq_none_iff : unit.repaired? = none ↔ Symbol.isName unit.name = false := by
  simp [repaired?]

theorem repaired?_of_isValid (h : unit.IsValid) : unit.repaired? = some unit := by
  have hall : unit.acceptedLines = Text.lines unit.text := by
    refine List.takeWhile_eq_self_iff.2 fun line hline => ?_
    obtain ⟨found, hfound⟩ := Text.fault?_scanLines_eq_none_iff.1 h.fault line hline
    rw [Text.isReadable, hfound]
    rfl
  rw [repaired?, if_pos h.name, hall, Text.lines, List.length_map, Text.firstLines_length_linesOf,
    String.ofList_toList]

end SourceUnit

namespace Draft

theorem addUnit_eq_error_iff {draft : Draft} {unit : SourceUnit} {fault : UnitFault} :
    (draft.addUnit unit).1 = .error fault ↔ unit.HasFault fault := by
  rw [addUnit_eq]
  cases hname : Symbol.isName unit.name with
  | false => simp [SourceUnit.hasFault_iff_of_not_isName hname]
  | true =>
      rw [SourceUnit.hasFault_iff_of_isName hname]
      cases hscan : unit.scan.fault? <;> simp

theorem addUnit_of_repaired? {draft : Draft} {unit repaired : SourceUnit}
    (h : unit.repaired? = some repaired) :
    draft.addUnit repaired = (.ok (), (draft.addUnit unit).2) := by
  obtain ⟨hname, hsame, -, -⟩ := SourceUnit.of_repaired? h
  rw [addUnit_eq, addUnit_eq, hsame, SourceUnit.commands, SourceUnit.scan_of_repaired? h]
  simp [hname, SourceUnit.commands]

theorem addUnit_of_repaired?_eq_none {draft : Draft} {unit : SourceUnit}
    (h : unit.repaired? = none) : (draft.addUnit unit).2 = draft := by
  rw [addUnit_eq, SourceUnit.repaired?_eq_none_iff.1 h]
  rfl

/-- Adds units one after another and goes on after faults. -/
def addEach (draft : Draft) (units : List SourceUnit) : Draft :=
  units.foldl (fun draft unit => (draft.addUnit unit).2) draft

/-- Units that are repaired can be added without a fault and make the same draft. -/
theorem addUnits_filterMap_repaired? (draft : Draft) (units : List SourceUnit) :
    draft.addUnits (units.filterMap SourceUnit.repaired?) = .ok (draft.addEach units) := by
  induction units generalizing draft with
  | nil => rfl
  | cons unit rest ih =>
      -- the units after this one find the same draft, with or without its repair in front of them
      have hrest := ih (draft.addUnit unit).2
      cases hunit : unit.repaired? with
      | none =>
          rw [addUnit_of_repaired?_eq_none hunit] at hrest
          rw [List.filterMap_cons_none hunit, hrest, addEach, addEach, List.foldl_cons,
            addUnit_of_repaired?_eq_none hunit]
      | some repaired =>
          rw [List.filterMap_cons_some hunit, addUnits, addUnit_of_repaired? hunit]
          exact hrest

end Draft

end Lowering

/-- When units are added one after another and faults are passed over, adding a unit fails exactly
when its name is not valid or a line of it is rejected, with the fault of the unit as a whole or of
the first such line. The draft, its number of commands and the listing that it ends in are at every
time those of the repaired units, which are added without a fault. Units without a fault stay as they
are. -/
theorem faulty_units_leave_their_commands {config : Config} {start : Draft}
    (h : Draft.start config = .ok start) (units : List SourceUnit) :
    (∀ before unit after, units = before ++ unit :: after →
      ((∃ fault, ((start.addEach before).addUnit unit).1 = .error fault) ↔
        Symbol.isName unit.name = false ∨
          ∃ line ∈ Text.lines unit.text, ∃ fault, IsRejected line fault) ∧
      ∀ fault, ((start.addEach before).addUnit unit).1 = .error fault ↔ unit.HasFault fault) ∧
    (∀ unit ∈ units, unit.IsValid → unit.repaired? = some unit) ∧
    (∀ k, start.addUnits ((units.take k).filterMap SourceUnit.repaired?) =
      .ok (start.addEach (units.take k))) ∧
    lower config (units.filterMap SourceUnit.repaired?) = .ok (start.addEach units).finish := by
  refine ⟨fun before unit after _ => ⟨?_, fun fault => Draft.addUnit_eq_error_iff⟩,
    fun unit _ => SourceUnit.repaired?_of_isValid,
    fun k => Draft.addUnits_filterMap_repaired? start _, ?_⟩
  · simp only [Draft.addUnit_eq_error_iff]
    have hvalid := (@SourceUnit.isValid_iff_not_hasFault unit).symm.trans SourceUnit.isValid_iff
    rw [← not_iff_not]
    simpa using hvalid
  · rw [lower, h]
    simp [Draft.addUnits_filterMap_repaired?, bind, Except.bind, pure, Except.pure]

/-- A unit without a valid name leaves nothing behind, and a unit with a bad third line leaves its
first two. The unit after them finds the draft of these two lines. -/
theorem faulty_units_leave_their_commands_two_lines :
    ∃ start, Draft.start ⟨false, defaultEntry⟩ = .ok start ∧
      ((start.addEach [⟨"1st", "return"⟩]).addUnit
          ⟨"Main", "function Main.f 0\neq // draws a number\nfoo\nreturn"⟩).1 =
        .error ⟨"Main", 3, .unknownCommand "foo"⟩ ∧
      lower ⟨false, defaultEntry⟩
          [⟨"Main", "function Main.f 0\neq // draws a number\n"⟩, ⟨"Other", "lt\nlabel A"⟩] =
        .ok (start.addEach [⟨"1st", "return"⟩,
          ⟨"Main", "function Main.f 0\neq // draws a number\nfoo\nreturn"⟩,
          ⟨"Other", "lt\nlabel A"⟩]).finish := by
  obtain ⟨hfails, -, -, hlower⟩ := @faulty_units_leave_their_commands ⟨false, defaultEntry⟩
    Draft.initial rfl [⟨"1st", "return"⟩,
      ⟨"Main", "function Main.f 0\neq // draws a number\nfoo\nreturn"⟩, ⟨"Other", "lt\nlabel A"⟩]
  refine ⟨Draft.initial, rfl, ((hfails [_] _ [_] rfl).2 _).2 ?_, ?_⟩
  · exact (SourceUnit.hasFault_iff_of_isName (by decide)).2
      ⟨⟨3, .unknownCommand "foo"⟩, by decide +kernel, rfl⟩
  · rw [← hlower]
    exact congrArg (lower _) (by decide +kernel)

end HackToolchain
