import HackToolchain.Proofs.Assembly.Faults
import HackToolchain.Proofs.Lowering.Labels
import HackToolchain.Proofs.Lowering.Numbering
import HackToolchain.Proofs.Vm.Store
import Mathlib.Data.List.Nodup

/-!
# Where the families of labels can meet

A name has no mark `$`, a label of a command has exactly one, and a generated label has two or none.
The digits behind the last mark of a generated label are its number. So generated labels never meet
each other nor a label of a command, and a generated label without a mark can only meet the name of a
function.
-/

namespace HackToolchain

namespace Lowering

open Vm
open Assembly hiding Fault

/-- What stands behind the last mark of a symbol. -/
def lastPart (cs : List Char) : List Char :=
  (cs.reverse.takeWhile (· != '$')).reverse

theorem takeWhile_reverse_append {cs : List Char} (h : '$' ∉ cs) (more : List Char) :
    (cs.reverse ++ more).takeWhile (· != '$') = cs.reverse ++ more.takeWhile (· != '$') := by
  apply List.takeWhile_append_of_pos
  intro c hc
  exact bne_iff_ne.2 fun heq => h (heq ▸ List.mem_reverse.1 hc)

theorem lastPart_of_not_mem {cs : List Char} (h : '$' ∉ cs) : lastPart cs = cs := by
  have hall := takeWhile_reverse_append h []
  simp only [List.takeWhile_nil, List.append_nil] at hall
  rw [lastPart, hall, List.reverse_reverse]

theorem lastPart_append_cons (before : List Char) {rest : List Char} (h : '$' ∉ rest) :
    lastPart (before ++ '$' :: rest) = rest := by
  rw [lastPart, List.reverse_append, List.reverse_cons, List.append_assoc,
    takeWhile_reverse_append h]
  simp

def number (symbol : String) : List Char :=
  (lastPart symbol.toList).filter Char.isDigit

def markCount (symbol : String) : Nat :=
  symbol.toList.count '$'

@[simp] theorem markCount_append (first second : String) :
    markCount (first ++ second) = markCount first + markCount second := by
  simp [markCount]

theorem markCount_eq_zero_iff {symbol : String} : markCount symbol = 0 ↔ '$' ∉ symbol.toList :=
  List.count_eq_zero

theorem markCount_of_isName {name : String} (h : Symbol.isName name = true) :
    markCount name = 0 := by
  simp only [Symbol.isName, Bool.and_eq_true, List.all_eq_true, bne_iff_ne] at h
  exact markCount_eq_zero_iff.2 fun hmem => h.2 _ hmem rfl

theorem markCount_scoped {scope label : String} (h : Symbol.isName scope = true)
    (h' : Symbol.isName label = true) : markCount (scope ++ "$" ++ label) = 1 := by
  have hmark : markCount "$" = 1 := rfl
  rw [markCount_append, markCount_append, markCount_of_isName h, hmark, markCount_of_isName h']

/-- A symbol tells a number: the digits behind its last mark are those of the number, it does not have
exactly one mark, and it has a character that predefined symbols do not have. -/
structure IsNumbered (symbol : String) (id : Nat) : Prop where
  number : number symbol = (toString id).toList
  markCount : markCount symbol ≠ 1
  joined : '_' ∈ symbol.toList ∨ '$' ∈ symbol.toList

theorem IsNumbered.unique {symbol : String} {id id' : Nat} (h : IsNumbered symbol id)
    (h' : IsNumbered symbol id') : id = id' :=
  Text.toString_inj (String.toList_inj.1 (h.number.symm.trans h'.number))

namespace IsBare

variable {text : String} (h : IsBare text)
include h

theorem not_mem : '$' ∉ text.toList :=
  fun hmem => (h _ hmem).1 rfl

theorem filter_isDigit : text.toList.filter Char.isDigit = [] := by
  rw [List.filter_eq_nil_iff]
  intro c hc
  simp [(h c hc).2]

end IsBare

theorem filter_isDigit_toString (n : Nat) :
    (toString n).toList.filter Char.isDigit = (toString n).toList :=
  List.filter_eq_self.2 fun _ => Text.isDigit_of_mem_toString n

theorem IsGenerated.isNumbered {id : Nat} {label : String} (h : IsGenerated id label) :
    IsNumbered label id := by
  cases h with
  | plain stem ending hstem hending hjoin hpoint =>
      have hnone : '$' ∉ (stem ++ toString id ++ ending).toList := by
        rw [String.toList_append, String.toList_append, List.mem_append, List.mem_append, not_or,
          not_or]
        exact ⟨⟨hstem.not_mem, not_mem_toString rfl id⟩, hending.not_mem⟩
      refine ⟨?_, ?_, .inl ?_⟩
      · rw [number, lastPart_of_not_mem hnone, String.toList_append, String.toList_append,
          List.filter_append, List.filter_append, hstem.filter_isDigit, hending.filter_isDigit,
          filter_isDigit_toString, List.nil_append, List.append_nil]
      · rw [markCount_eq_zero_iff.2 hnone]
        decide
      · rw [String.toList_append, String.toList_append]
        exact List.mem_append_left _ (List.mem_append_left _ hjoin)
  | @marked name text mark hmark htext =>
      have hrest : '$' ∉ text.toList ++ (toString id).toList := by
        rw [List.mem_append, not_or]
        exact ⟨htext.not_mem, not_mem_toString rfl id⟩
      have hsplit : (name ++ mark ++ toString id).toList =
          (name.toList ++ ['$']) ++ '$' :: (text.toList ++ (toString id).toList) := by
        simp [hmark]
      refine ⟨?_, ?_, .inr ?_⟩
      · rw [number, hsplit, lastPart_append_cons _ hrest, List.filter_append, htext.filter_isDigit,
          filter_isDigit_toString, List.nil_append]
      · rw [markCount, hsplit]
        simp only [List.count_append, List.count_cons_self]
        omega
      · rw [hsplit]
        exact List.mem_append_right _ List.mem_cons_self

namespace Placed

theorem nodup_generated (placed : Placed) : placed.generated.Nodup := by
  obtain ⟨context, command⟩ := placed
  have hpair {first second : String} (h : first ≠ second) : [first, second].Nodup := by
    simpa using h
  cases command with
  | operate operator =>
      have hcompare (name : String) (condition : Jump) :
          (labels (compare name context.nextId condition)).Nodup := by
        rw [labels_compare]
        exact hpair fun h => absurd (String.append_right_inj _ |>.1 h) (by decide)
      cases operator with
      | eq | gt | lt => exact hcompare _ _
      | _ => exact .nil
  | function name locals =>
      apply hpair
      intro h
      have h := String.append_right_inj name |>.1 (String.append_left_inj _ |>.1 h)
      exact absurd h (by decide)
  | call name args => exact List.pairwise_singleton _ _
  | _ => exact .nil

end Placed

/-- No predefined symbol has a mark in it, nor the character that joins the parts of a generated
label. -/
theorem predefined?_of_mem {symbol : String} (h : '_' ∈ symbol.toList ∨ '$' ∈ symbol.toList) :
    Symbol.predefined? symbol = none := by
  have hjoined : ∀ entry ∈ Symbol.predefined,
      ¬('_' ∈ entry.1.toList ∨ '$' ∈ entry.1.toList) := by decide
  rw [Symbol.predefined?, List.lookup_eq_none_iff]
  intro entry hentry
  apply bne_iff_ne.2
  rintro rfl
  exact hjoined entry hentry h

theorem not_mem_of_isName {name : String} (h : Symbol.isName name = true) : '$' ∉ name.toList :=
  markCount_eq_zero_iff.1 (markCount_of_isName h)

theorem Context.IsNamed.isName_scope {context : Context} (h : context.IsNamed) :
    Symbol.isName context.scope = true := by
  rw [scope]
  cases hfunction : context.function with
  | none => exact h.unit
  | some name => exact h.function name hfunction

namespace Placed

variable {placed : Placed} (h : placed.IsValid)
include h

theorem isName_of_functionName? {name : String} (hname : placed.functionName? = some name) :
    Symbol.isName name = true := by
  obtain ⟨context, command⟩ := placed
  cases command with
  | function other locals =>
      obtain rfl := Option.some.inj hname
      exact (signature_of_defect? h.defect).1
  | _ => simp [functionName?] at hname

theorem markCount_scopedLabel {label : String} (hlabel : placed.scopedLabel? = some label) :
    markCount label = 1 := by
  obtain ⟨context, command⟩ := placed
  cases command with
  | label name =>
      obtain rfl := Option.some.inj hlabel
      have hnamed : context.IsNamed := by simpa using h.named
      exact markCount_scoped hnamed.isName_scope (isName_of_nameDefect? h.defect)
  | _ => simp [scopedLabel?] at hlabel

end Placed

namespace Program

variable {program : Program}

theorem statements_of_not_bootstrap (h : program.bootstrap = false) :
    program.statements = program.commands.flatMap Placed.block ++
      [.label ("END_" ++ toString program.nextId), load ("END_" ++ toString program.nextId),
        jump] := by
  rw [program.statements_eq_blocks, prologue, epilogue, h]
  rfl

theorem labelAddress?_lt (hbootstrap : program.bootstrap = false)
    (hsize : codeSize program.statements ≤ MemoryMap.romSize) {name : String} {address : Nat}
    (h : labelAddress? name program.statements = some address) : address < 32768 := by
  rw [statements_of_not_bootstrap hbootstrap] at h hsize
  have hroom : codeSize (program.commands.flatMap Placed.block) + 2 ≤ 32768 := by
    rw [codeSize_append] at hsize
    exact hsize
  rw [labelAddress?_append, Option.or_eq_some_iff] at h
  rcases h with h | ⟨-, h⟩
  · have hle := labelAddress?_le h
    omega
  · obtain ⟨after, hafter, rfl⟩ := Option.map_eq_some_iff.1 h
    have hend : name = "END_" ++ toString program.nextId ∧ 0 = after := by
      simpa [labelAddress?, load, jump, jumpIf] using hafter
    omega

theorem labels_statements (h : program.bootstrap = false) :
    labels program.statements = program.commands.flatMap (fun placed => labels placed.block) ++
      ["END_" ++ toString program.nextId] := by
  have hcommands : labels (program.commands.flatMap Placed.block) =
      program.commands.flatMap fun placed => labels placed.block :=
    List.filterMap_flatMap
  rw [statements_of_not_bootstrap h, labels_append, hcommands]
  rfl

section Valid

variable (hvalid : ∀ placed ∈ program.commands, placed.IsValid)
  (hnumbers : program.commands.Pairwise fun p q => p.nextId ≤ q.context.nextId)
  (hlast : ∀ placed ∈ program.commands, placed.nextId ≤ program.nextId)

include hnumbers hlast in
/-- No generated label is declared twice: commands that draw numbers draw different ones. -/
theorem nodup_generated : program.generated.Nodup := by
  have hdraw {placed : Placed} (h : drawsId placed.command = true) :
      placed.nextId = placed.context.nextId + 1 := by
    simp [Placed.nextId, Context.after, h]
  have hcommands : (program.commands.flatMap Placed.generated).Nodup := by
    refine List.nodup_flatMap.2 ⟨fun placed _ => placed.nodup_generated, ?_⟩
    refine hnumbers.imp fun {p q} hle => ?_
    intro label hp hq
    obtain ⟨hdraws, hp⟩ := Placed.isGenerated_of_mem_generated hp
    obtain ⟨-, hq⟩ := Placed.isGenerated_of_mem_generated hq
    -- one label would be one number, but the later command draws a larger one
    have hid := hp.isNumbered.unique hq.isNumbered
    have hnext := hdraw hdraws
    omega
  rw [generated]
  split
  · rwa [List.append_nil]
  · refine List.nodup_append.2 ⟨hcommands, List.nodup_singleton _, ?_⟩
    rintro label hlabel other hother rfl
    obtain ⟨placed, hplaced, hlabel⟩ := List.mem_flatMap.1 hlabel
    obtain ⟨hdraws, hnumber⟩ := Placed.isGenerated_of_mem_generated hlabel
    rw [List.mem_singleton.1 hother] at hnumber
    have hid := hnumber.isNumbered.unique (IsGenerated.halt program.nextId).isNumbered
    have hnext := hdraw hdraws
    have hle := hlast placed hplaced
    omega

include hvalid in
/-- A label of a command is neither the name of a function nor generated. -/
theorem not_mem_of_mem_scopedLabels {label : String} (h : label ∈ program.scopedLabels) :
    label ∉ program.functionNames ∧ label ∉ program.generated := by
  obtain ⟨placed, hplaced, hlabel⟩ := List.mem_filterMap.1 h
  have hone := Placed.markCount_scopedLabel (hvalid placed hplaced) hlabel
  constructor
  · intro hname
    obtain ⟨other, hother, hname⟩ := List.mem_filterMap.1 hname
    have hzero := markCount_of_isName (Placed.isName_of_functionName? (hvalid other hother) hname)
    omega
  · intro hgenerated
    obtain ⟨id, hnumbered⟩ := exists_isGenerated_of_mem_generated hgenerated
    exact hnumbered.isNumbered.markCount hone

include hvalid in
theorem predefined?_of_mem_scopedLabels {label : String} (h : label ∈ program.scopedLabels) :
    Symbol.predefined? label = none := by
  obtain ⟨placed, hplaced, hlabel⟩ := List.mem_filterMap.1 h
  have hone := Placed.markCount_scopedLabel (hvalid placed hplaced) hlabel
  refine predefined?_of_mem (.inr (by_contra fun hmem => ?_))
  rw [markCount_eq_zero_iff.2 hmem] at hone
  simp at hone

include hvalid hnumbers hlast in
/-- The labels of a program clash only where functions or labels of commands clash among themselves,
or where a function has a name that is predefined or generated. -/
theorem areFresh_labels_iff :
    AreFresh (labels program.statements) ↔
      program.functionNames.Nodup ∧ program.scopedLabels.Nodup ∧
      (∀ name ∈ program.functionNames, Symbol.predefined? name = none) ∧
      ∀ name ∈ program.functionNames, name ∉ program.generated := by
  have hgenerated := nodup_generated hnumbers hlast
  rw [AreFresh, program.labels_perm.nodup_iff]
  have hmem (label : String) : label ∈ labels program.statements ↔
      (label ∈ program.functionNames ∨ label ∈ program.scopedLabels) ∨
        label ∈ program.generated := by
    rw [program.labels_perm.mem_iff, List.mem_append, List.mem_append]
  constructor
  · rintro ⟨hnodup, hfree⟩
    rw [List.nodup_append, List.nodup_append] at hnodup
    obtain ⟨⟨hnames, hscoped, -⟩, -, hdisjoint⟩ := hnodup
    refine ⟨hnames, hscoped, fun name hname => hfree name ((hmem name).2 (.inl (.inl hname))),
      fun name hname hclash => ?_⟩
    exact hdisjoint name (List.mem_append_left _ hname) name hclash rfl
  · rintro ⟨hnames, hscoped, hfree, hapart⟩
    refine ⟨List.nodup_append.2 ⟨List.nodup_append.2 ⟨hnames, hscoped, ?_⟩, hgenerated, ?_⟩, ?_⟩
    · rintro name hname label hlabel rfl
      exact (not_mem_of_mem_scopedLabels hvalid hlabel).1 hname
    · rintro label hlabel other hother rfl
      rcases List.mem_append.1 hlabel with hname | hlabel
      · exact hapart label hname hother
      · exact (not_mem_of_mem_scopedLabels hvalid hlabel).2 hother
    · intro label hlabel
      rcases (hmem label).1 hlabel with (hname | hlabel) | hlabel
      · exact hfree label hname
      · exact predefined?_of_mem_scopedLabels hvalid hlabel
      · obtain ⟨id, hnumbered⟩ := exists_isGenerated_of_mem_generated hlabel
        exact predefined?_of_mem hnumbered.isNumbered.joined

include hvalid hnumbers hlast in
theorem areFresh_of_isStraight
    (hstraight : ∀ placed ∈ program.commands, placed.command.isStraight = true) :
    AreFresh (labels program.statements) := by
  have hnone : ∀ placed ∈ program.commands,
      placed.functionName? = none ∧ placed.scopedLabel? = none := by
    intro placed hplaced
    have hcommand := hstraight placed hplaced
    obtain ⟨context, command⟩ := placed
    cases command with
    | function name locals | label name => simp [Command.isStraight] at hcommand
    | _ => exact ⟨rfl, rfl⟩
  have hnames : program.functionNames = [] :=
    List.filterMap_eq_nil_iff.2 fun placed hplaced => (hnone placed hplaced).1
  have hscoped : program.scopedLabels = [] :=
    List.filterMap_eq_nil_iff.2 fun placed hplaced => (hnone placed hplaced).2
  rw [areFresh_labels_iff hvalid hnumbers hlast, hnames, hscoped]
  simp

end Valid

end Program

end Lowering

end HackToolchain
