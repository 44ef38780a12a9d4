import HackToolchain.Proofs.GeneratedText
import HackToolchain.Proofs.Lowering.References
import HackToolchain.Proofs.Lowering.Scopes

/-!
# Generated labels are unique

A program declares the labels that it generates for itself once each, in the block that refers to
them, however often its commands repeat. They are apart from the labels of its commands, and those
are told apart by what they belong to and by their names.
-/

namespace HackToolchain

open Assembly Lowering

namespace Lowering

/-- The label that a command declares or jumps to, with the name of what it belongs to. -/
def Placed.label? : Placed → Option (String × String)
  | ⟨context, .label name⟩ | ⟨context, .goto name⟩ | ⟨context, .ifGoto name⟩ =>
    some (context.scope, name)
  | _ => none

theorem Placed.isName_of_label? {placed : Placed} (h : placed.IsValid) {label : String × String}
    (hlabel : placed.label? = some label) :
    Symbol.isName label.1 = true ∧ Symbol.isName label.2 = true := by
  obtain ⟨context, command⟩ := placed
  cases command with
  | label name | goto name | ifGoto name =>
      obtain rfl := Option.some.inj hlabel
      have hnamed : context.IsNamed := by simpa using h.named
      exact ⟨hnamed.isName_scope, isName_of_nameDefect? h.defect⟩
  | _ => simp [label?] at hlabel

/-- A symbol of the source that a command refers to is generated only if the command is a call. -/
theorem Placed.exists_call_of_mem_references {placed : Placed} (h : placed.IsValid)
    {symbol : String} {id : Nat} (hsymbol : symbol ∈ placed.references)
    (hgenerated : IsGenerated id symbol) :
    ∃ context args, placed = ⟨context, .call symbol args⟩ := by
  rw [references, List.mem_append, Option.mem_toList, Option.mem_toList] at hsymbol
  rcases hsymbol with hstatic | htarget
  · obtain ⟨index, hindex, rfl⟩ := Option.map_eq_some_iff.1 hstatic
    have hnamed := isNamed_of_static h hindex
    exact absurd hgenerated.isReserved (not_isReserved_staticSymbol hnamed.unit index)
  · have hscoped {label : String × String} (hlabel : placed.label? = some label) :
        symbol ≠ scopedSymbol label := by
      rintro rfl
      obtain ⟨hscope, hname⟩ := isName_of_label? h hlabel
      exact hgenerated.isNumbered.markCount (markCount_scoped hscope hname)
    obtain ⟨context, command⟩ := placed
    cases command with
    | goto name => exact absurd (Option.some.inj htarget).symm (hscoped rfl)
    | ifGoto name => exact absurd (Option.some.inj htarget).symm (hscoped rfl)
    | call name args =>
        obtain rfl := Option.some.inj htarget
        exact ⟨context, args, rfl⟩
    | _ => simp [target?] at htarget

/-- Whether the labels that a program generates are unique: each part declares labels of the source
and the ones that it generates, and refers to symbols of the source and the ones that it generates;
each of these is generated once, the part that generates it refers to it, and other parts do so only
where they call a function of that name; and none is the symbol of a label of a command, which tells
the label. -/
structure Program.LabelsAreUnique (program : Program) : Prop where
  declared : ∀ part ∈ program.parts, labels part.block = part.declared ++ part.generated
  referred : ∀ part ∈ program.parts, RefersTo (part.references ++ part.generated) part.block
  once : ∀ label ∈ program.parts.flatMap Part.generated,
    (program.parts.flatMap Part.generated).count label = 1
  own : ∀ (i j : Nat) (part other : Part), program.parts[i]? = some part →
    program.parts[j]? = some other → ∀ label ∈ part.generated, label ∈ symbolsIn part.block ∧
      (label ∈ symbolsIn other.block →
        i = j ∨ ∃ context args, other = .command ⟨context, .call label args⟩)
  apart : ∀ placed ∈ program.commands, ∀ label ∈ placed.label?,
    scopedSymbol label ∉ program.parts.flatMap Part.generated
  distinct : ∀ placed ∈ program.commands, ∀ label ∈ placed.label?,
    ∀ other ∈ program.commands, ∀ label' ∈ other.label?,
      scopedSymbol label = scopedSymbol label' → label = label'

namespace Program

variable {program : Program} (hvalid : ∀ placed ∈ program.commands, placed.IsValid)
include hvalid

theorem scopedSymbol_not_mem_generated {placed : Placed} (h : placed ∈ program.commands)
    {label : String × String} (hlabel : placed.label? = some label) :
    scopedSymbol label ∉ program.generated := by
  intro hgenerated
  obtain ⟨id, hnumbered⟩ := exists_isGenerated_of_mem_generated hgenerated
  obtain ⟨hscope, hname⟩ := Placed.isName_of_label? (hvalid placed h) hlabel
  exact hnumbered.isNumbered.markCount (markCount_scoped hscope hname)

/-- A part refers to a generated label if the label is its own, or if it calls a function of that
name. -/
theorem mem_generated_of_mem_symbolsIn {part : Part} (hpart : part ∈ program.parts) {label : String}
    (hgenerated : label ∈ program.generated) (h : label ∈ symbolsIn part.block) :
    label ∈ part.generated ∨ ∃ context args, part = .command ⟨context, .call label args⟩ := by
  obtain ⟨id, hnumbered⟩ := exists_isGenerated_of_mem_generated hgenerated
  rcases part.refersTo_block label h with hpredefined | hsymbol
  · rw [predefined?_of_mem hnumbered.isNumbered.joined] at hpredefined
    cases hpredefined
  · refine (List.mem_append.1 hsymbol).symm.imp_right fun hsymbol => ?_
    cases part with
    | command placed =>
        have hplaced := hvalid placed (mem_commands_of_mem_parts hpart)
        obtain ⟨context, args, rfl⟩ := Placed.exists_call_of_mem_references hplaced hsymbol hnumbered
        exact ⟨context, args, rfl⟩
    | _ => simp [Part.references] at hsymbol

theorem labelsAreUnique (hnodup : program.generated.Nodup) : program.LabelsAreUnique where
  declared part _ := part.labels_block
  referred part _ := part.refersTo_block
  once label hlabel := by
    rw [← generated_eq_flatMap_parts] at hlabel ⊢
    exact List.count_eq_one_of_mem hnodup hlabel
  own i j part other hi hj label hlabel := by
    refine ⟨part.generated_subset_symbolsIn hlabel, fun hother => ?_⟩
    rw [generated_eq_flatMap_parts] at hnodup
    have hgenerated : label ∈ program.generated := by
      rw [generated_eq_flatMap_parts]
      exact List.mem_flatMap.2 ⟨part, List.mem_of_getElem? hi, hlabel⟩
    have hmem := mem_generated_of_mem_symbolsIn hvalid (List.mem_of_getElem? hj) hgenerated hother
    exact hmem.imp_left fun hlabel' => index_eq_of_nodup_flatMap hnodup hi hj hlabel hlabel'
  apart placed hplaced label hlabel := by
    rw [← generated_eq_flatMap_parts]
    exact scopedSymbol_not_mem_generated hvalid hplaced hlabel
  distinct placed hplaced label hlabel other hother label' hlabel' := by
    have hname := (Placed.isName_of_label? (hvalid placed hplaced) hlabel).1
    have hname' := (Placed.isName_of_label? (hvalid other hother) hlabel').1
    exact scopedSymbol_inj (not_mem_of_isName hname) (not_mem_of_isName hname')

end Program

end Lowering

/-- The text of a program that units are lowered to has the statements of its parts, and the labels
that it generates are unique. -/
theorem generated_labels_are_unique {config : Config} {units : List SourceUnit} {listing : Listing}
    (h : lower config units = .ok listing) :
    statementsOn (Text.lines listing.toText) =
      ((Program.ofUnits config units).parts.flatMap Part.block).map Statement.spelled ∧
    (Program.ofUnits config units).LabelsAreUnique := by
  obtain ⟨hentry, hunits, rfl⟩ := lower_eq_ok_iff.1 h
  have hvalid := Program.isValid_of_mem_ofUnits hentry hunits
  have hlines := Program.isWritable_of_mem_lines hvalid
  constructor
  · rw [lines_toText hlines, statementsOn_map_render hlines, Program.flatMap_parts,
      Program.statements]
  · have hnumbers := Program.pairwise_ofUnits config units
    exact Program.labelsAreUnique hvalid
      (Program.nodup_generated hnumbers fun placed => Program.nextId_of_mem_ofUnits)

/-- Two units with the same comparison and the same call, one of them with the comparison twice. -/
theorem generated_labels_are_unique_repeated :
    ∃ listing,
      lower {} [⟨"Main", "function Main.f 0\neq\neq\ncall Main.f 0\nlabel L\ngoto L"⟩,
        ⟨"Other", "eq\ncall Main.f 0\nlabel L"⟩] = .ok listing ∧
      (Program.ofUnits {} [⟨"Main", "function Main.f 0\neq\neq\ncall Main.f 0\nlabel L\ngoto L"⟩,
        ⟨"Other", "eq\ncall Main.f 0\nlabel L"⟩]).LabelsAreUnique ∧
      (Program.ofUnits {} [⟨"Main", "function Main.f 0\neq\neq\ncall Main.f 0\nlabel L\ngoto L"⟩,
        ⟨"Other", "eq\ncall Main.f 0\nlabel L"⟩]).parts.flatMap Part.generated =
        ["Main.f$$INIT_LOOP.0", "Main.f$$INIT_END.0", "EQ_1_TRUE", "EQ_1_END", "EQ_2_TRUE",
          "EQ_2_END", "Main.f$$ret.3", "EQ_4_TRUE", "EQ_4_END", "Main.f$$ret.5", "END_6"] := by
  have hlower := (@lower_eq_ok_iff {}
    [⟨"Main", "function Main.f 0\neq\neq\ncall Main.f 0\nlabel L\ngoto L"⟩,
      ⟨"Other", "eq\ncall Main.f 0\nlabel L"⟩] _).2 ⟨by decide, by decide +kernel, rfl⟩
  exact ⟨_, hlower, (generated_labels_are_unique hlower).2, by decide +kernel⟩

end HackToolchain
