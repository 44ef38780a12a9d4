import HackToolchain.Proofs.Lowering.Families
import HackToolchain.Proofs.Lowering.Simulation
import HackToolchain.Proofs.Lowering.Statics

/-!
# What generated code refers to

The code of a program has a part for the bootstrap, one for each command, and one for the halt. Besides
predefined symbols, the code of a command refers to the symbol of its static cell, to the symbol that
it jumps to, and to the labels that it generates.
-/

namespace HackToolchain

namespace Lowering

open Vm
open Assembly hiding Fault

/-- Whether the symbols that a block refers to are predefined or in a list. -/
def RefersTo (symbols : List String) (block : Block) : Prop :=
  ∀ symbol ∈ symbolsIn block, (Symbol.predefined? symbol).isSome = true ∨ symbol ∈ symbols

namespace RefersTo

variable {symbols : List String} {block rest : Block}

@[simp] theorem nil : RefersTo symbols [] := by
  simp [RefersTo]

@[simp] theorem append_iff :
    RefersTo symbols (block ++ rest) ↔ RefersTo symbols block ∧ RefersTo symbols rest := by
  simp [RefersTo, or_imp, forall_and]

@[simp] theorem flatMap_iff {α : Type} {f : α → Block} {xs : List α} :
    RefersTo symbols (xs.flatMap f) ↔ ∀ x ∈ xs, RefersTo symbols (f x) := by
  induction xs with
  | nil => simp
  | cons x xs ih => simp [ih]

@[simp] theorem load_iff {symbol : String} :
    RefersTo symbols (load symbol :: rest) ↔
      ((Symbol.predefined? symbol).isSome = true ∨ symbol ∈ symbols) ∧ RefersTo symbols rest := by
  rw [RefersTo, symbolsIn_load, List.forall_mem_cons]
  rfl

@[simp] theorem loadPointer_iff {p : Pointer} :
    RefersTo symbols (loadPointer p :: rest) ↔ RefersTo symbols rest := by
  have hpointer : (Symbol.predefined? p.symbol).isSome = true := by
    cases p <;> decide
  rw [loadPointer, load_iff, and_iff_right (.inl hpointer)]

@[simp] theorem loadNumber_iff {value : Word} :
    RefersTo symbols (loadNumber value :: rest) ↔ RefersTo symbols rest := Iff.rfl

@[simp] theorem label_iff {name : String} :
    RefersTo symbols (.label name :: rest) ↔ RefersTo symbols rest := Iff.rfl

@[simp] theorem compute_iff {c : Computation} :
    RefersTo symbols (.instruction (.compute c) :: rest) ↔ RefersTo symbols rest := Iff.rfl

@[simp] theorem pushD : RefersTo symbols pushD := by
  simp [Lowering.pushD, setA, setM]

@[simp] theorem popD : RefersTo symbols popD := by
  simp [Lowering.popD, setAM, setD]

@[simp] theorem replaceTop (comp : Comp) : RefersTo symbols (replaceTop comp) := by
  simp [Lowering.replaceTop, setA, setM]

theorem combine (comp : Comp) : RefersTo symbols (combine comp) := by
  simp [Lowering.combine, setA, setM]

theorem compare (name : String) (id : Nat) (condition : Jump) :
    RefersTo (labels (compare name id condition)) (compare name id condition) := by
  rw [labels_compare]
  simp [Lowering.compare, setA, setD, jumpIf, jump]

end RefersTo

theorem labels_compare_subset (name : String) (id : Nat) (condition : Jump) :
    labels (compare name id condition) ⊆ symbolsIn (compare name id condition) := by
  rw [labels_compare]
  simp [compare, setA, setD, jumpIf, jump]

namespace Placed

def references (placed : Placed) : List String :=
  (placed.static?.map placed.context.staticSymbol).toList ++ placed.target?.toList

theorem refersTo_block (placed : Placed) :
    RefersTo (placed.references ++ placed.generated) placed.block := by
  have hscratch : (Symbol.predefined? MemoryMap.scratch).isSome = true := by decide
  have hsecond : (Symbol.predefined? MemoryMap.secondScratch).isSome = true := by decide
  obtain ⟨context, command⟩ := placed
  cases command with
  | operate operator =>
      cases operator with
      | eq | gt | lt => exact RefersTo.compare _ _ _
      | neg | not => exact RefersTo.replaceTop _
      | _ => exact RefersTo.combine _
  | push segment index =>
      cases segment <;>
        simp [block, Lowering.block, readCell, Segment.base, setD, setA, references, static?]
  | pop segment index =>
      cases segment <;>
        simp [block, Lowering.block, popCell, Segment.base, setD, setA, setM, references, static?,
          hscratch]
  | label name => simp [block, Lowering.block]
  | goto name => simp [block, Lowering.block, jump, jumpIf, references, target?]
  | ifGoto name => simp [block, Lowering.block, jumpIf, references, target?]
  | function name locals =>
      simp [block, Lowering.block, functionBlock, setD, setM, setA, setMD, jumpIf, generated,
        hscratch]
  | call name args =>
      simp [block, Lowering.block, callBlock, setD, setM, jump, jumpIf, savedPointers, savePointer,
        references, target?, generated]
  | ret =>
      simp [block, Lowering.block, returnBlock, setD, setM, setA, setAM, jump, jumpIf, savedPointers,
        restorePointer, hscratch, hsecond]

theorem generated_subset_symbolsIn (placed : Placed) :
    placed.generated ⊆ symbolsIn placed.block := by
  obtain ⟨context, command⟩ := placed
  cases command with
  | operate operator =>
      cases operator with
      | eq | gt | lt => exact labels_compare_subset _ _ _
      | _ => exact List.nil_subset _
  | function name locals =>
      have hsymbols : symbolsIn (functionBlock context.nextId name locals) =
          [name ++ "$$INIT_END." ++ toString context.nextId, MemoryMap.scratch, "SP", "SP",
            MemoryMap.scratch, name ++ "$$INIT_LOOP." ++ toString context.nextId] := rfl
      simp [generated, block, Lowering.block, hsymbols]
  | call name args => simp [generated, block, Lowering.block, callBlock]
  | _ => exact List.nil_subset _

end Placed

/-- A part of a program: the bootstrap, a command, or the halt. -/
inductive Part
  | bootstrap
  | command (placed : Placed)
  | halt (id : Nat)

namespace Part

def block : Part → Block
  | bootstrap => statementsOf bootstrapLines
  | command placed => placed.block
  | halt id => statementsOf (haltLines id)

def declared : Part → List String
  | command placed => placed.functionName?.toList ++ placed.scopedLabel?.toList
  | bootstrap | halt _ => []

def references : Part → List String
  | command placed => placed.references
  | bootstrap | halt _ => []

def generated : Part → List String
  | bootstrap => []
  | command placed => placed.generated
  | halt id => ["END_" ++ toString id]

theorem labels_block (part : Part) : labels part.block = part.declared ++ part.generated := by
  cases part with
  | bootstrap => rfl
  | command placed => exact placed.labels_block
  | halt id => rfl

theorem refersTo_block (part : Part) :
    RefersTo (part.references ++ part.generated) part.block := by
  cases part with
  | bootstrap =>
      have hblock : block .bootstrap =
          [loadNumber MemoryMap.stackBase, setD (.source .a), loadPointer .sp, setM .d] := rfl
      simp [hblock, setD, setM]
  | command placed => exact placed.refersTo_block
  | halt id =>
      have hblock : block (.halt id) =
          [.label ("END_" ++ toString id), load ("END_" ++ toString id), jump] := rfl
      simp [hblock, generated, jump, jumpIf]

theorem generated_subset_symbolsIn (part : Part) : part.generated ⊆ symbolsIn part.block := by
  cases part with
  | bootstrap => exact List.nil_subset _
  | command placed => exact placed.generated_subset_symbolsIn
  | halt id => exact List.cons_subset.2 ⟨List.mem_cons_self, List.nil_subset _⟩

end Part

namespace Program

def parts (program : Program) : List Part :=
  (if program.bootstrap then [.bootstrap] else []) ++ program.commands.map .command ++
    if program.bootstrap then [] else [.halt program.nextId]

theorem flatMap_parts (program : Program) :
    program.parts.flatMap Part.block = program.statements := by
  have hcommands : (program.commands.map Part.command).flatMap Part.block =
      program.commands.flatMap Placed.block := List.flatMap_map ..
  rw [statements_eq_blocks, parts, List.flatMap_append, List.flatMap_append, hcommands, prologue,
    epilogue]
  cases program.bootstrap <;> rfl

theorem generated_eq_flatMap_parts (program : Program) :
    program.generated = program.parts.flatMap Part.generated := by
  have hcommands : (program.commands.map Part.command).flatMap Part.generated =
      program.commands.flatMap Placed.generated := List.flatMap_map ..
  rw [parts, List.flatMap_append, List.flatMap_append, hcommands, generated]
  cases program.bootstrap <;> rfl

theorem mem_commands_of_mem_parts {program : Program} {placed : Placed}
    (h : .command placed ∈ program.parts) : placed ∈ program.commands := by
  rw [parts] at h
  cases hbootstrap : program.bootstrap <;> simpa [hbootstrap] using h

end Program

end Lowering

end HackToolchain
