import HackToolchain.Proofs.Lowering.Scopes
import HackToolchain.Proofs.Toolchain

/-!
# Whether the labels of a program clash

Units that declare nothing twice may still be lowered to a program that declares a label twice. A
function may have the name of a label that is generated for a comparison or for the halt, because
these have no mark `$` in them. And a unit and a function may have one name, and then a label before
the functions of the unit and a label of the function are the same if their names are. Nothing else
can go wrong.
-/

namespace HackToolchain

open Assembly hiding Fault
open Lowering

/-- Whether the labels of units are apart: no function has the name of a label that is generated, and
no label before the functions of a unit has the name of one in a function with the name of the unit. -/
structure AreApart (config : Config) (units : List SourceUnit) : Prop where
  generated : ∀ function ∈ functionsOf units,
    function.1 ∉ (Program.ofUnits config units).generated
  shared : ∀ unit ∈ units, ∀ function ∈ functionsOf units, function.1 = unit.name →
    ∀ label ∈ labelNames unit.prelude, label ∉ labelNames function.2

instance (config : Config) (units : List SourceUnit) : Decidable (AreApart config units) :=
  decidable_of_iff ((∀ function ∈ functionsOf units,
      function.1 ∉ (Program.ofUnits config units).generated) ∧
      ∀ unit ∈ units, ∀ function ∈ functionsOf units, function.1 = unit.name →
        ∀ label ∈ labelNames unit.prelude, label ∉ labelNames function.2)
    ⟨fun ⟨generated, shared⟩ => ⟨generated, shared⟩, fun h => ⟨h.generated, h.shared⟩⟩

/-- Labels are apart if a point tells the names of functions from those of units. -/
theorem areApart_of_points (config : Config) {units : List SourceUnit}
    (hunits : ∀ unit ∈ units, unit.IsValid) (hplain : ∀ unit ∈ units, '.' ∉ unit.name.toList)
    (hpoint : ∀ function ∈ functionsOf units, '.' ∈ function.1.toList) :
    AreApart config units where
  generated := by
    intro function hfunction hmem
    obtain ⟨id, hlabel⟩ := Program.exists_isGenerated_of_mem_generated hmem
    rcases hlabel.isReserved with hmark | hnone
    · exact not_mem_of_isName (isName_of_mem_functionsOf hunits hfunction) hmark
    · exact hnone (hpoint function hfunction)
  shared := by
    intro unit hunit function hfunction hname
    exact absurd (hname ▸ hpoint function hfunction) (hplain unit hunit)

section Clash

variable {config : Config} {units : List SourceUnit}
  (hentry : ∀ command ∈ Program.entry config, command.defect? = none)
  (hunits : ∀ unit ∈ units, unit.IsValid)
include hentry hunits

/-- The labels of units that declare nothing twice can be bound if and only if they are apart. -/
theorem areFresh_labels_iff_areApart (h : DeclareOnce units) :
    AreFresh (labels (Program.ofUnits config units).statements) ↔ AreApart config units := by
  rw [Program.areFresh_labels_iff (Program.isValid_of_mem_ofUnits hentry hunits)
      (Program.pairwise_ofUnits config units) (fun placed => Program.nextId_of_mem_ofUnits),
    Program.functionNames_ofUnits, Program.scopedLabels_ofUnits, and_iff_right h.functions,
    nodup_map_scopedSymbol_iff hunits, h.nodup_scopedNames_iff, List.forall_mem_map,
    and_iff_right h.free, List.forall_mem_map]
  exact ⟨fun ⟨shared, generated⟩ => ⟨generated, shared⟩, fun h => ⟨h.shared, h.generated⟩⟩

end Clash

/-- The text of units that declare nothing twice does not fail to assemble for a label that is
declared twice if their labels are apart. If they are not apart it does not assemble, and it is for
such a label unless ROM is too small. -/
theorem duplicateLabel_unless_areApart {config : Config} {units : List SourceUnit}
    {listing : Listing} (hlower : lower config units = .ok listing) (h : DeclareOnce units) :
    (AreApart config units → ∀ line label,
      assemble listing.toText ≠ .error ⟨line, .duplicateLabel label⟩) ∧
    (¬AreApart config units → ∃ fault, assemble listing.toText = .error fault ∧
      ((∃ label, fault.value = .duplicateLabel label) ∨
        fault.value = .programTooLarge ∧ MemoryMap.romSize < listing.instructionCount)) := by
  obtain ⟨hentry, hunits, rfl⟩ := lower_eq_ok_iff.1 hlower
  have hlines := Program.isWritable_of_mem_lines (Program.isValid_of_mem_ofUnits hentry hunits)
  rw [← areFresh_labels_iff_areApart hentry hunits h, instructionCount_ofLines]
  refine ⟨fun hfresh line label hfault => ?_, exists_fault_of_not_areFresh hlines⟩
  rcases fault_of_assemble hlines hfault with
    ⟨-, -, hclash⟩ | ⟨hvalue, -⟩ | ⟨-, -, name, -, ⟨hvalue, -⟩ | ⟨hvalue, -⟩⟩
  · exact hclash hfresh
  all_goals cases hvalue

/-- Two units and a function have a label of one name, and their labels are apart. A unit and a
function of one name have a label of one name too, and theirs are not. -/
theorem duplicateLabel_unless_areApart_shared_label :
    (∃ listing,
      lower {} [⟨"Main", "label L\nfunction Main.f 0\nlabel L\npush constant 1\neq"⟩,
        ⟨"Other", "label L\ngoto L"⟩] = .ok listing ∧
      ∀ line label, assemble listing.toText ≠ .error ⟨line, .duplicateLabel label⟩) ∧
    ∃ listing fault label,
      lower {} [⟨"Main", "label L\nfunction Main 0\nlabel L"⟩] = .ok listing ∧
      assemble listing.toText = .error fault ∧ fault.value = .duplicateLabel label := by
  constructor
  · have hlower := (@lower_eq_ok_iff {}
      [⟨"Main", "label L\nfunction Main.f 0\nlabel L\npush constant 1\neq"⟩,
        ⟨"Other", "label L\ngoto L"⟩] _).2 ⟨by decide, by decide +kernel, rfl⟩
    have hapart := (duplicateLabel_unless_areApart hlower (by decide +kernel)).1
    exact ⟨_, hlower, hapart (areApart_of_points _ (by decide +kernel) (by decide +kernel)
      (by decide +kernel))⟩
  · have hlower := (@lower_eq_ok_iff {} [⟨"Main", "label L\nfunction Main 0\nlabel L"⟩] _).2
      ⟨by decide, by decide +kernel, rfl⟩
    obtain ⟨fault, hfault, hvalue⟩ := (duplicateLabel_unless_areApart hlower
      (by decide +kernel)).2 (by decide +kernel)
    obtain ⟨label, hlabel⟩ := hvalue.resolve_right fun hsize => absurd hsize.2 (by decide +kernel)
    exact ⟨_, fault, label, hlower, hfault, hlabel⟩

/-- A function with the name of a label that the comparison in its body generates. -/
theorem duplicateLabel_of_function_named_comparison :
    ∃ listing line label,
      lower {} [⟨"Main", "function EQ_1_TRUE 0\npush constant 1\npush constant 1\neq\n"⟩] =
        .ok listing ∧
      DeclareOnce
        [⟨"Main", "function EQ_1_TRUE 0\npush constant 1\npush constant 1\neq\n"⟩] ∧
      assemble listing.toText = .error ⟨line, .duplicateLabel label⟩ := by
  have hunits : ∀ unit ∈ [⟨"Main",
      "function EQ_1_TRUE 0\npush constant 1\npush constant 1\neq\n"⟩], SourceUnit.IsValid unit := by
    decide +kernel
  have hentry : ∀ command ∈ Program.entry {}, command.defect? = none := by decide
  have hlower := lower_eq_ok_iff.2 ⟨hentry, hunits, rfl⟩
  have honce : DeclareOnce
      [⟨"Main", "function EQ_1_TRUE 0\npush constant 1\npush constant 1\neq\n"⟩] := by
    decide +kernel
  have hclash := mt (areFresh_labels_iff_areApart hentry hunits honce).1 (by decide +kernel)
  have hlines := Program.isWritable_of_mem_lines (Program.isValid_of_mem_ofUnits hentry hunits)
  obtain ⟨⟨line, value⟩, hfault, ⟨label, rfl⟩ | ⟨-, hsize⟩⟩ :=
    exists_fault_of_not_areFresh hlines hclash
  · exact ⟨_, line, label, hlower, honce, hfault⟩
  · exact absurd hsize (by decide +kernel)

end HackToolchain
