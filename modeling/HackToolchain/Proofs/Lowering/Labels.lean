import HackToolchain.Proofs.Lowering.Layout
import Mathlib.Data.List.Perm.Basic

/-!
# The labels of generated code

The labels of a program are the names of its functions, the labels of its commands with what they
belong to in front of them, and the labels that are generated with a number. Besides the names of
functions they have the mark `$` in them, which no name has, or no point, which the symbol of a static
cell has. So the symbol of a static cell is a label only where a function has that name.
-/

namespace HackToolchain

namespace Lowering

open Vm
open Assembly hiding Fault

/-- Whether a symbol cannot be that of a static cell. -/
def IsReserved (symbol : String) : Prop :=
  '$' ∈ symbol.toList ∨ '.' ∉ symbol.toList

theorem isReserved_scopedLabel (context : Context) (label : String) :
    IsReserved (context.scopedLabel label) := by
  left
  simp [Context.scopedLabel]

theorem not_mem_toString {c : Char} (h : c.isDigit = false) (n : Nat) :
    c ∉ (toString n).toList := by
  intro hmem
  simp [Text.isDigit_of_mem_toString n hmem] at h

@[simp] theorem labels_pushD : labels pushD = [] := rfl

@[simp] theorem labels_popD : labels popD = [] := rfl

@[simp] theorem labels_replaceTop (comp : Comp) : labels (replaceTop comp) = [] := rfl

@[simp] theorem labels_combine (comp : Comp) : labels (combine comp) = [] := rfl

@[simp] theorem labels_readCell (context : Context) (segment : Segment) (index : Word) :
    labels (readCell context segment index) = [] := by
  cases segment <;> rfl

@[simp] theorem labels_popCell (context : Context) (segment : Segment) (index : Word) :
    labels (popCell context segment index) = [] := by
  cases segment <;> rfl

theorem labels_compare (name : String) (id : Nat) (condition : Jump) :
    labels (compare name id condition) =
      [name ++ "_" ++ toString id ++ "_TRUE", name ++ "_" ++ toString id ++ "_END"] := rfl

/-- A text without marks and digits. -/
def IsBare (text : String) : Prop :=
  ∀ c ∈ text.toList, c ≠ '$' ∧ c.isDigit = false

instance (text : String) : Decidable (IsBare text) :=
  inferInstanceAs (Decidable (∀ c ∈ text.toList, c ≠ '$' ∧ c.isDigit = false))

/-- A label that is generated with a number. The number is between two texts, joined to the first and
without points, or it is behind a name, two marks and a text. -/
inductive IsGenerated (id : Nat) : String → Prop
  | plain (stem ending : String) (hstem : IsBare stem) (hending : IsBare ending)
      (hjoin : '_' ∈ stem.toList) (hpoint : '.' ∉ stem.toList ∧ '.' ∉ ending.toList) :
      IsGenerated id (stem ++ toString id ++ ending)
  | marked (name text : String) {mark : String} (hmark : mark = "$$" ++ text)
      (htext : IsBare text) : IsGenerated id (name ++ mark ++ toString id)

namespace IsGenerated

theorem halt (id : Nat) : IsGenerated id ("END_" ++ toString id) := by
  have hplain : IsGenerated id ("END_" ++ toString id ++ "") :=
    .plain "END_" "" (by decide) (by decide) (by decide) (by decide)
  rwa [String.append_empty] at hplain

theorem isReserved {id : Nat} {label : String} (h : IsGenerated id label) : IsReserved label := by
  cases h with
  | plain stem ending hstem hending hjoin hpoint =>
      right
      rw [String.toList_append, String.toList_append, List.mem_append, List.mem_append, not_or,
        not_or]
      exact ⟨⟨hpoint.1, not_mem_toString rfl id⟩, hpoint.2⟩
  | marked name text hmark htext =>
      left
      simp [hmark]

end IsGenerated

namespace Placed

def functionName? : Placed → Option String
  | ⟨_, .function name _⟩ => some name
  | _ => none

def scopedLabel? : Placed → Option String
  | ⟨context, .label name⟩ => some (context.scopedLabel name)
  | _ => none

def generated (placed : Placed) : List String :=
  match placed.command with
  | .operate operator => labels (operatorBlock placed.context.nextId operator)
  | .function name _ =>
    [name ++ "$$INIT_LOOP." ++ toString placed.context.nextId,
      name ++ "$$INIT_END." ++ toString placed.context.nextId]
  | .call name _ => [name ++ "$$ret." ++ toString placed.context.nextId]
  | _ => []

theorem labels_block (placed : Placed) :
    labels placed.block =
      placed.functionName?.toList ++ placed.scopedLabel?.toList ++ placed.generated := by
  obtain ⟨context, command⟩ := placed
  cases command with
  | push segment index => simp [block, Lowering.block, functionName?, scopedLabel?, generated]
  | pop segment index => simp [block, Lowering.block, functionName?, scopedLabel?, generated]
  | _ => rfl

theorem isGenerated_of_mem_compare {name label : String} {id : Nat} {condition : Jump}
    (hname : IsBare (name ++ "_")) (hpoint : '.' ∉ (name ++ "_").toList)
    (h : label ∈ labels (compare name id condition)) : IsGenerated id label := by
  have hjoin : '_' ∈ (name ++ "_").toList := by simp
  rw [labels_compare] at h
  simp only [List.mem_cons, List.not_mem_nil, or_false] at h
  rcases h with rfl | rfl
  · exact .plain (name ++ "_") "_TRUE" hname (by decide) hjoin ⟨hpoint, by decide⟩
  · exact .plain (name ++ "_") "_END" hname (by decide) hjoin ⟨hpoint, by decide⟩

theorem isGenerated_of_mem_generated {placed : Placed} {label : String}
    (h : label ∈ placed.generated) :
    drawsId placed.command = true ∧ IsGenerated placed.context.nextId label := by
  obtain ⟨context, command⟩ := placed
  cases command with
  | operate operator =>
      cases operator with
      | eq | gt | lt => exact ⟨rfl, isGenerated_of_mem_compare (by decide) (by decide) h⟩
      | _ => simp [generated, operatorBlock] at h
  | function name locals =>
      refine ⟨rfl, ?_⟩
      simp only [generated, List.mem_cons, List.not_mem_nil, or_false] at h
      rcases h with rfl | rfl
      · exact .marked name "INIT_LOOP." rfl (by decide)
      · exact .marked name "INIT_END." rfl (by decide)
  | call name args =>
      obtain rfl := List.mem_singleton.1 h
      exact ⟨rfl, .marked name "ret." rfl (by decide)⟩
  | _ => simp [generated] at h

theorem isReserved_of_scopedLabel? {placed : Placed} {label : String}
    (h : placed.scopedLabel? = some label) : IsReserved label := by
  obtain ⟨context, command⟩ := placed
  cases command with
  | label name =>
      obtain rfl := Option.some.inj h
      exact isReserved_scopedLabel context name
  | _ => simp [scopedLabel?] at h

end Placed

namespace Program

def functionNames (program : Program) : List String :=
  program.commands.filterMap Placed.functionName?

def scopedLabels (program : Program) : List String :=
  program.commands.filterMap Placed.scopedLabel?

def generated (program : Program) : List String :=
  program.commands.flatMap Placed.generated ++
    if program.bootstrap then [] else ["END_" ++ toString program.nextId]

theorem labels_prologue (program : Program) : labels (statementsOf program.prologue) = [] := by
  rw [prologue]
  split <;> rfl

theorem labels_epilogue (program : Program) :
    labels (statementsOf program.epilogue) =
      if program.bootstrap then [] else ["END_" ++ toString program.nextId] := by
  rw [epilogue]
  split <;> rfl

/-- The labels of a program are those of the three families in some order. -/
theorem labels_perm (program : Program) :
    (labels program.statements).Perm
      (program.functionNames ++ program.scopedLabels ++ program.generated) := by
  have hblocks : labels (program.commands.flatMap Placed.block) =
      program.commands.flatMap fun placed => placed.functionName?.toList ++
        placed.scopedLabel?.toList ++ placed.generated := by
    rw [labels, List.filterMap_flatMap]
    exact congrArg (program.commands.flatMap ·) (funext Placed.labels_block)
  have hfamilies : (labels (program.commands.flatMap Placed.block)).Perm
      (program.functionNames ++ program.scopedLabels ++
        program.commands.flatMap Placed.generated) := by
    rw [hblocks, functionNames, scopedLabels, List.filterMap_eq_flatMap_toList,
      List.filterMap_eq_flatMap_toList]
    refine (List.flatMap_append_perm _ _ _).symm.trans ?_
    exact (List.flatMap_append_perm _ _ _).symm.append_right _
  rw [statements_eq_blocks, labels_append, labels_append, labels_prologue, labels_epilogue,
    List.nil_append, generated, ← List.append_assoc]
  exact hfamilies.append_right _

theorem mem_labels_of_generated {program : Program} {placed : Placed} {label : String}
    (hplaced : placed ∈ program.commands) (h : label ∈ placed.generated) :
    label ∈ labels program.statements := by
  rw [program.labels_perm.mem_iff, generated]
  exact List.mem_append_right _ (List.mem_append_left _ (List.mem_flatMap.2 ⟨placed, hplaced, h⟩))

theorem exists_isGenerated_of_mem_generated {program : Program} {label : String}
    (h : label ∈ program.generated) : ∃ id, IsGenerated id label := by
  rw [generated, List.mem_append, List.mem_flatMap] at h
  rcases h with ⟨placed, -, hlabel⟩ | hlabel
  · exact ⟨_, (Placed.isGenerated_of_mem_generated hlabel).2⟩
  · split at hlabel
    · simp at hlabel
    · exact ⟨_, List.mem_singleton.1 hlabel ▸ IsGenerated.halt program.nextId⟩

/-- The labels of a program are the names of its functions and reserved ones. -/
theorem isReserved_of_mem_labels {program : Program} {label : String}
    (h : label ∈ labels program.statements) :
    label ∈ program.functionNames ∨ IsReserved label := by
  rw [program.labels_perm.mem_iff, List.mem_append, List.mem_append] at h
  rcases h with (hname | hscoped) | hgenerated
  · exact .inl hname
  · obtain ⟨placed, -, hlabel⟩ := List.mem_filterMap.1 hscoped
    exact .inr (Placed.isReserved_of_scopedLabel? hlabel)
  · obtain ⟨id, hlabel⟩ := exists_isGenerated_of_mem_generated hgenerated
    exact .inr hlabel.isReserved

end Program

theorem not_isReserved_staticSymbol {context : Context} (h : Symbol.isName context.unit = true)
    (index : Word) : ¬IsReserved (context.staticSymbol index) := by
  have hunit : '$' ∉ context.unit.toList := by
    simp only [Symbol.isName, Bool.and_eq_true, List.all_eq_true, bne_iff_ne] at h
    exact fun hmem => h.2 _ hmem rfl
  have hindex : '$' ∉ (toString index.toNat).toList := not_mem_toString rfl _
  rintro (hmem | hmem)
  · simp only [Context.staticSymbol, String.toList_append, List.mem_append] at hmem
    rcases hmem with (hmem | hmem) | hmem
    · exact hunit hmem
    · exact absurd hmem (by decide)
    · exact hindex hmem
  · simp [Context.staticSymbol] at hmem

/-- The symbol of a static cell is a label only if a function has that name. -/
theorem Program.exists_function_of_mem_labels {program : Program} {context : Context} {index : Word}
    (hname : Symbol.isName context.unit = true)
    (h : context.staticSymbol index ∈ labels program.statements) :
    ∃ placed ∈ program.commands, ∃ locals,
      placed.command = .function (context.staticSymbol index) locals := by
  have hmem := (isReserved_of_mem_labels h).resolve_right (not_isReserved_staticSymbol hname index)
  obtain ⟨⟨context', command⟩, hplaced, hfunction⟩ := List.mem_filterMap.1 hmem
  cases command with
  | function name locals =>
      exact ⟨_, hplaced, locals, congrArg (Command.function · locals) (Option.some.inj hfunction)⟩
  | _ => simp [Placed.functionName?] at hfunction

theorem predefined?_staticSymbol (context : Context) (index : Word) :
    Symbol.predefined? (context.staticSymbol index) = none := by
  have hpoint : ∀ entry ∈ Symbol.predefined, '.' ∉ entry.1.toList := by decide
  rw [Symbol.predefined?, List.lookup_eq_none_iff]
  intro entry hentry
  apply bne_iff_ne.2
  intro heq
  apply hpoint entry hentry
  simp [← heq, Context.staticSymbol]

end Lowering

end HackToolchain
