import HackToolchain.Proofs.Lowering.Families
import HackToolchain.Proofs.Lowering.Simulation

/-!
# Static cells

A static cell is given by a unit and an index, and different cells have different symbols, whatever
the names of units look like. In a program without jumps the static cells are the only variables, so
they have their addresses in the order of their first use.
-/

namespace HackToolchain

namespace Lowering

open Vm
open Assembly hiding Fault

def cellSymbol (cell : String × Word) : String :=
  (Context.ofUnit cell.1).staticSymbol cell.2

def Placed.cell? (placed : Placed) : Option (String × Word) :=
  staticCell? (placed.context.unit, placed.command)

theorem toList_cellSymbol (cell : String × Word) :
    (cellSymbol cell).toList = cell.1.toList ++ '.' :: (toString cell.2.toNat).toList := by
  rw [cellSymbol, Context.staticSymbol, Context.ofUnit, String.toList_append, String.toList_append,
    List.append_assoc]
  rfl

theorem Placed.cell?_eq (placed : Placed) :
    placed.cell? = placed.static?.map (placed.context.unit, ·) := by
  obtain ⟨context, command⟩ := placed
  cases command with
  | push segment index => cases segment <;> rfl
  | pop segment index => cases segment <;> rfl
  | _ => rfl

/-- Different static cells have different symbols: the index is behind the last point. -/
theorem cellSymbol_injective : Function.Injective cellSymbol := by
  intro cell other h
  have hpoint (n : Nat) : '.' ∉ (toString n).toList.reverse := by
    rw [List.mem_reverse]
    exact not_mem_toString rfl n
  have hsplit (cell : String × Word) :
      Text.splitFirst ['.'] (cellSymbol cell).toList.reverse =
        some ((toString cell.2.toNat).toList.reverse, cell.1.toList.reverse) := by
    rw [toList_cellSymbol, List.reverse_append, List.reverse_cons, List.append_assoc]
    exact Text.splitFirst_append_cons (hpoint _) _
  have heq := (hsplit cell).symm.trans (h ▸ hsplit other)
  obtain ⟨hindex, hunit⟩ := Prod.mk.inj (Option.some.inj heq)
  have hunit := String.toList_inj.1 (List.reverse_injective hunit)
  have hindex := Text.toString_inj (String.toList_inj.1 (List.reverse_injective hindex))
  exact Prod.ext hunit (UInt16.toNat_inj.1 hindex)

def symbolsIn (statements : Block) : List String :=
  (code statements).filterMap Instruction.symbol?

@[simp] theorem symbolsIn_nil : symbolsIn [] = [] := rfl

@[simp] theorem symbolsIn_label (name : String) (rest : Block) :
    symbolsIn (.label name :: rest) = symbolsIn rest := rfl

@[simp] theorem symbolsIn_load (symbol : String) (rest : Block) :
    symbolsIn (load symbol :: rest) = symbol :: symbolsIn rest := rfl

@[simp] theorem symbolsIn_loadNumber (value : Word) (rest : Block) :
    symbolsIn (loadNumber value :: rest) = symbolsIn rest := rfl

@[simp] theorem symbolsIn_compute (c : Computation) (rest : Block) :
    symbolsIn (.instruction (.compute c) :: rest) = symbolsIn rest := rfl

@[simp] theorem symbolsIn_append (before after : Block) :
    symbolsIn (before ++ after) = symbolsIn before ++ symbolsIn after := by
  simp [symbolsIn, code_append]

theorem symbolsIn_flatMap (commands : List Placed) :
    symbolsIn (commands.flatMap Placed.block) =
      commands.flatMap fun placed => symbolsIn placed.block := by
  induction commands with
  | nil => rfl
  | cons placed rest ih => rw [List.flatMap_cons, symbolsIn_append, ih, List.flatMap_cons]

section Block

variable {isVariable : String → Bool} (hpointer : ∀ p : Pointer, isVariable p.symbol = false)
include hpointer

theorem filter_symbolsIn_pushD : (symbolsIn pushD).filter isVariable = [] := by
  simp [pushD, loadPointer, setA, setM, hpointer]

theorem filter_symbolsIn_popD : (symbolsIn popD).filter isVariable = [] := by
  simp [popD, loadPointer, setAM, setD, hpointer]

theorem filter_symbolsIn_replaceTop (comp : Comp) :
    (symbolsIn (replaceTop comp)).filter isVariable = [] := by
  simp [replaceTop, loadPointer, setA, setM, hpointer]

theorem filter_symbolsIn_combine (comp : Comp) :
    (symbolsIn (combine comp)).filter isVariable = [] := by
  simp [combine, setA, setM, filter_symbolsIn_popD hpointer]

theorem filter_symbolsIn_compare {name : String} {id : Nat} {condition : Jump}
    (hlabels : ∀ label ∈ labels (compare name id condition), isVariable label = false) :
    (symbolsIn (compare name id condition)).filter isVariable = [] := by
  rw [labels_compare, List.forall_mem_cons, List.forall_mem_singleton] at hlabels
  have hsymbols : symbolsIn (compare name id condition) =
      symbolsIn popD ++ (name ++ "_" ++ toString id ++ "_TRUE") :: symbolsIn (replaceTop .zero) ++
        (name ++ "_" ++ toString id ++ "_END") :: symbolsIn (replaceTop .minusOne) := rfl
  rw [hsymbols, List.filter_append, List.filter_append,
    List.filter_cons_of_neg (Bool.not_eq_true _ ▸ hlabels.1),
    List.filter_cons_of_neg (Bool.not_eq_true _ ▸ hlabels.2), filter_symbolsIn_popD hpointer,
    filter_symbolsIn_replaceTop hpointer, filter_symbolsIn_replaceTop hpointer]
  rfl

/-- The only variable that a command without a jump uses is its static cell. -/
theorem filter_symbolsIn_block {placed : Placed} (h : placed.command.isStraight = true)
    (hlabels : ∀ label ∈ labels placed.block, isVariable label = false)
    (hcell : ∀ cell ∈ placed.cell?, isVariable (cellSymbol cell) = true) :
    (symbolsIn placed.block).filter isVariable = placed.cell?.toList.map cellSymbol := by
  have hpush := filter_symbolsIn_pushD hpointer
  have hpop := filter_symbolsIn_popD hpointer
  obtain ⟨context, command⟩ := placed
  cases command with
  | operate operator =>
      cases operator with
      | eq => exact filter_symbolsIn_compare hpointer hlabels
      | gt => exact filter_symbolsIn_compare hpointer hlabels
      | lt => exact filter_symbolsIn_compare hpointer hlabels
      | neg => exact filter_symbolsIn_replaceTop hpointer _
      | not => exact filter_symbolsIn_replaceTop hpointer _
      | _ => exact filter_symbolsIn_combine hpointer _
  | push segment index =>
      cases segment with
      | static =>
          have hvariable : isVariable (context.staticSymbol index) = true := hcell _ rfl
          simp [Placed.block, block, readCell, Segment.base, setD, hpush, hvariable]
          rfl
      | constant | temp =>
          simp [Placed.block, block, readCell, Segment.base, setD, hpush, Placed.cell?, staticCell?]
      | _ => simp [Command.isStraight] at h
  | pop segment index =>
      cases segment with
      | static =>
          have hvariable : isVariable (context.staticSymbol index) = true := hcell _ rfl
          simp [Placed.block, block, popCell, Segment.base, setM, hpop, hvariable]
          rfl
      | temp =>
          simp [Placed.block, block, popCell, Segment.base, setM, hpop, Placed.cell?, staticCell?]
      | _ => simp [Command.isStraight] at h
  | _ => simp [Command.isStraight] at h

end Block

def Placed.pair (placed : Placed) : String × Command :=
  (placed.context.unit, placed.command)

def commandsOf (units : List SourceUnit) : List (String × Command) :=
  units.flatMap fun unit => unit.commands.map (unit.name, ·)

theorem map_pair_place (context : Context) (commands : List Command) :
    (place context commands).map Placed.pair = commands.map (context.unit, ·) := by
  induction commands generalizing context with
  | nil => rfl
  | cons command rest ih =>
      rw [place, List.map_cons, ih]
      rfl

theorem map_pair_placeUnits (context : Context) (units : List SourceUnit) :
    (placeUnits context units).map Placed.pair = commandsOf units := by
  induction units generalizing context with
  | nil => rfl
  | cons unit rest ih =>
      rw [placeUnits, List.map_append, map_pair_place, ih]
      rfl

namespace Program

theorem map_pair_ofUnits (config : Config) (units : List SourceUnit) :
    (ofUnits config units).commands.map Placed.pair =
      (entry config).map ("", ·) ++ commandsOf units := by
  rw [ofUnits, List.map_append, map_pair_place, map_pair_placeUnits]
  rfl

variable {program : Program}

theorem symbolsIn_statements (h : program.bootstrap = false) :
    symbolsIn program.statements =
      program.commands.flatMap (fun placed => symbolsIn placed.block) ++
        ["END_" ++ toString program.nextId] := by
  rw [statements_of_not_bootstrap h, symbolsIn_append, symbolsIn_flatMap]
  rfl

theorem variableSymbols_statements (hbootstrap : program.bootstrap = false)
    (hstraight : ∀ placed ∈ program.commands, placed.command.isStraight = true)
    (hnames : ∀ placed ∈ program.commands, Symbol.isName placed.context.unit = true) :
    variableSymbols program.statements =
      (staticCells (program.commands.map Placed.pair)).map cellSymbol := by
  let isVariable (symbol : String) : Bool := (Symbol.predefined? symbol).isNone &&
    (labelAddress? symbol program.statements).isNone
  have hlabel {label : String} (h : label ∈ labels program.statements) :
      isVariable label = false := by
    have hfound := mt labelAddress?_eq_none_iff.1 (not_not_intro h)
    rw [← ne_eq, ← Option.isSome_iff_ne_none, ← Option.isNone_eq_false_iff] at hfound
    exact Bool.and_eq_false_iff.2 (.inr hfound)
  have hpointer (p : Pointer) : isVariable p.symbol = false := by
    have hfound : (Symbol.predefined? p.symbol).isNone = false := by
      cases p <;> decide
    exact Bool.and_eq_false_iff.2 (.inl hfound)
  have hblock : ∀ placed ∈ program.commands,
      (symbolsIn placed.block).filter isVariable = placed.cell?.toList.map cellSymbol := by
    intro placed hplaced
    refine filter_symbolsIn_block hpointer (hstraight placed hplaced) (fun label h => hlabel ?_)
      fun cell hcell => ?_
    · rw [labels_statements hbootstrap, List.mem_append, List.mem_flatMap]
      exact .inl ⟨placed, hplaced, h⟩
    · rw [Placed.cell?_eq] at hcell
      obtain ⟨index, -, rfl⟩ := Option.map_eq_some_iff.1 hcell
      have hfree : placed.context.staticSymbol index ∉ labels program.statements := by
        intro hmem
        obtain ⟨other, hother, locals, hcommand⟩ :=
          exists_function_of_mem_labels (hnames placed hplaced) hmem
        have hfunction := hstraight other hother
        simp [hcommand, Command.isStraight] at hfunction
      have hpredefined := predefined?_staticSymbol placed.context index
      exact Bool.and_eq_true_iff.2 ⟨Option.isNone_iff_eq_none.2 hpredefined,
        Option.isNone_iff_eq_none.2 (labelAddress?_eq_none_iff.2 hfree)⟩
  -- behind the blocks only the label of the halt is used
  have hused : (symbolsIn program.statements).filter isVariable =
      ((program.commands.map Placed.pair).filterMap staticCell?).map cellSymbol := by
    have hend : isVariable ("END_" ++ toString program.nextId) = false := by
      apply hlabel
      rw [labels_statements hbootstrap]
      exact List.mem_append_right _ (List.mem_singleton_self _)
    rw [symbolsIn_statements hbootstrap, List.filter_append, List.filter_flatMap,
      List.flatMap_congr hblock, List.filter_cons_of_neg (Bool.eq_false_iff.1 hend),
      List.filter_nil, List.append_nil, ← List.map_flatMap, ← List.filterMap_eq_flatMap_toList,
      List.filterMap_map]
    rfl
  rw [staticCells, ← eraseDups_map fun x _ y _ h => cellSymbol_injective h, ← hused]
  rfl

end Program

end Lowering

end HackToolchain
