import HackToolchain.Proofs.Lowering.Families

/-!
# What the labels of commands belong to

The functions of a unit cut its commands into pieces: the commands before the first function, whose
labels belong to the unit, and the body of each function, whose labels belong to the function. A label
of a command is known by the name of what it belongs to and its own name. Two labels that differ in
one of them have different symbols, so labels clash only where a unit and a function have one name.
-/

namespace HackToolchain

namespace Lowering

open Vm
open Assembly hiding Fault

def labelName? : Command → Option String
  | .label name => some name
  | _ => none

def labelNames (commands : List Command) : List String :=
  commands.filterMap labelName?

/-- The commands before the first function, and each function with the commands of its body. -/
def cutAtFunctions : List Command → List Command × List (String × List Command)
  | [] => ([], [])
  | .function name _ :: rest => ([], (name, (cutAtFunctions rest).1) :: (cutAtFunctions rest).2)
  | command :: rest => (command :: (cutAtFunctions rest).1, (cutAtFunctions rest).2)

def SourceUnit.prelude (unit : SourceUnit) : List Command :=
  (cutAtFunctions unit.commands).1

def SourceUnit.functions (unit : SourceUnit) : List (String × List Command) :=
  (cutAtFunctions unit.commands).2

def functionsOf (units : List SourceUnit) : List (String × List Command) :=
  units.flatMap SourceUnit.functions

/-- The labels of functions, each with the name of its function. -/
def bodyLabels (functions : List (String × List Command)) : List (String × String) :=
  functions.flatMap fun function => (labelNames function.2).map (function.1, ·)

/-- The labels of commands that start in a scope, each with the name of what it belongs to. -/
def scopedNames (scope : String) (commands : List Command) : List (String × String) :=
  (labelNames (cutAtFunctions commands).1).map (scope, ·) ++ bodyLabels (cutAtFunctions commands).2

def scopedSymbol (label : String × String) : String :=
  label.1 ++ "$" ++ label.2

theorem filterMap_scopedLabel?_place (context : Context) (commands : List Command) :
    (place context commands).filterMap Placed.scopedLabel? =
      (scopedNames context.scope commands).map scopedSymbol := by
  induction commands generalizing context with
  | nil => rfl
  | cons command rest ih =>
      have hrest := ih (context.after command)
      cases command with
      | label name => exact congrArg (context.scopedLabel name :: ·) hrest
      | _ => exact hrest

theorem filterMap_functionName?_place (context : Context) (commands : List Command) :
    (place context commands).filterMap Placed.functionName? =
      (cutAtFunctions commands).2.map Prod.fst := by
  induction commands generalizing context with
  | nil => rfl
  | cons command rest ih =>
      have hrest := ih (context.after command)
      cases command with
      | function name locals => exact congrArg (name :: ·) hrest
      | _ => exact hrest

theorem filterMap_scopedLabel?_placeUnits (context : Context) (units : List SourceUnit) :
    (placeUnits context units).filterMap Placed.scopedLabel? =
      (units.flatMap fun unit => scopedNames unit.name unit.commands).map scopedSymbol := by
  induction units generalizing context with
  | nil => rfl
  | cons unit rest ih =>
      rw [placeUnits, List.filterMap_append, filterMap_scopedLabel?_place, ih, List.flatMap_cons,
        List.map_append]
      rfl

theorem filterMap_functionName?_placeUnits (context : Context) (units : List SourceUnit) :
    (placeUnits context units).filterMap Placed.functionName? =
      (functionsOf units).map Prod.fst := by
  induction units generalizing context with
  | nil => rfl
  | cons unit rest ih =>
      rw [placeUnits, List.filterMap_append, filterMap_functionName?_place, ih]
      simp only [functionsOf, List.flatMap_cons, List.map_append]
      rfl

namespace Program

variable (config : Config) (units : List SourceUnit)

theorem filterMap_place_entry :
    (place (.ofUnit "") (entry config)).filterMap Placed.functionName? = [] ∧
      (place (.ofUnit "") (entry config)).filterMap Placed.scopedLabel? = [] := by
  rw [entry]
  split <;> exact ⟨rfl, rfl⟩

theorem functionNames_ofUnits :
    (ofUnits config units).functionNames = (functionsOf units).map Prod.fst := by
  rw [functionNames, ofUnits, List.filterMap_append, (filterMap_place_entry config).1,
    filterMap_functionName?_placeUnits, List.nil_append]

theorem scopedLabels_ofUnits :
    (ofUnits config units).scopedLabels =
      (units.flatMap fun unit => scopedNames unit.name unit.commands).map scopedSymbol := by
  rw [scopedLabels, ofUnits, List.filterMap_append, (filterMap_place_entry config).2,
    filterMap_scopedLabel?_placeUnits, List.nil_append]

end Program

/-- A label belongs to what its symbol says: to what stands before the first mark. -/
theorem scopedSymbol_inj {label label' : String × String} (h : '$' ∉ label.1.toList)
    (h' : '$' ∉ label'.1.toList) (heq : scopedSymbol label = scopedSymbol label') :
    label = label' := by
  have hsplit {label : String × String} (h : '$' ∉ label.1.toList) :
      Text.splitFirst ['$'] (scopedSymbol label).toList =
        some (label.1.toList, label.2.toList) := by
    rw [scopedSymbol, String.toList_append, String.toList_append, List.append_assoc]
    exact Text.splitFirst_append_cons h _
  have hparts := (hsplit h).symm.trans (heq ▸ hsplit h')
  obtain ⟨hscope, hlabel⟩ := Prod.mk.inj (Option.some.inj hparts)
  exact Prod.ext (String.toList_inj.1 hscope) (String.toList_inj.1 hlabel)

theorem nodup_flatMap_keys {ι α β : Type} {xs : List ι} {key : ι → α} {values : ι → List β}
    (hkeys : (xs.map key).Nodup) (hvalues : ∀ x ∈ xs, (values x).Nodup) :
    (xs.flatMap fun x => (values x).map (key x, ·)).Nodup := by
  refine List.nodup_flatMap.2 ⟨fun x hx => ?_, ?_⟩
  · exact (hvalues x hx).map fun _ _ h => (Prod.mk.inj h).2
  · refine (List.pairwise_map.1 hkeys).imp fun {x y} hne => ?_
    intro pair hx hy
    obtain ⟨value, -, rfl⟩ := List.mem_map.1 hx
    obtain ⟨value', -, heq⟩ := List.mem_map.1 hy
    exact hne (Prod.mk.inj heq).1.symm

/-- The labels of units are those before their functions and those of the functions. -/
theorem flatMap_scopedNames_perm (units : List SourceUnit) :
    (units.flatMap fun unit => scopedNames unit.name unit.commands).Perm
      ((units.flatMap fun unit => (labelNames unit.prelude).map (unit.name, ·)) ++
        bodyLabels (functionsOf units)) := by
  rw [bodyLabels, functionsOf, List.flatMap_assoc]
  exact (List.flatMap_append_perm _ _ _).symm

section Valid

variable {units : List SourceUnit} (hunits : ∀ unit ∈ units, unit.IsValid)
include hunits

theorem isName_of_mem_functionsOf {function : String × List Command}
    (h : function ∈ functionsOf units) : Symbol.isName function.1 = true := by
  have hmem := List.mem_map_of_mem (f := Prod.fst) h
  rw [← filterMap_functionName?_placeUnits (.ofUnit ""), List.mem_filterMap] at hmem
  obtain ⟨placed, hplaced, hname⟩ := hmem
  exact Placed.isName_of_functionName? (isValid_of_mem_placeUnits hunits placed hplaced) hname

theorem isName_of_mem_scopedNames {label : String × String}
    (h : label ∈ units.flatMap fun unit => scopedNames unit.name unit.commands) :
    Symbol.isName label.1 = true := by
  rw [(flatMap_scopedNames_perm units).mem_iff, List.mem_append, List.mem_flatMap, bodyLabels,
    List.mem_flatMap] at h
  rcases h with ⟨unit, hunit, hlabel⟩ | ⟨function, hfunction, hlabel⟩
  · obtain ⟨name, -, rfl⟩ := List.mem_map.1 hlabel
    exact (hunits unit hunit).name
  · obtain ⟨name, -, rfl⟩ := List.mem_map.1 hlabel
    exact isName_of_mem_functionsOf hunits hfunction

theorem nodup_map_scopedSymbol_iff :
    ((units.flatMap fun unit => scopedNames unit.name unit.commands).map scopedSymbol).Nodup ↔
      (units.flatMap fun unit => scopedNames unit.name unit.commands).Nodup := by
  refine ⟨List.Nodup.of_map _, List.Nodup.map_on fun label hlabel label' hlabel' => ?_⟩
  exact scopedSymbol_inj (not_mem_of_isName (isName_of_mem_scopedNames hunits hlabel))
    (not_mem_of_isName (isName_of_mem_scopedNames hunits hlabel'))

end Valid

/-- Whether units declare nothing twice: their names are distinct, and so are the names of all
functions, which are not predefined, and neither the commands before the functions of a unit nor the
body of a function declare a label twice. -/
structure DeclareOnce (units : List SourceUnit) : Prop where
  names : (units.map SourceUnit.name).Nodup
  functions : ((functionsOf units).map Prod.fst).Nodup
  free : ∀ function ∈ functionsOf units, Symbol.predefined? function.1 = none
  preludes : ∀ unit ∈ units, (labelNames unit.prelude).Nodup
  bodies : ∀ function ∈ functionsOf units, (labelNames function.2).Nodup

instance (units : List SourceUnit) : Decidable (DeclareOnce units) :=
  decidable_of_iff ((units.map SourceUnit.name).Nodup ∧
      ((functionsOf units).map Prod.fst).Nodup ∧
      (∀ function ∈ functionsOf units, Symbol.predefined? function.1 = none) ∧
      (∀ unit ∈ units, (labelNames unit.prelude).Nodup) ∧
      ∀ function ∈ functionsOf units, (labelNames function.2).Nodup)
    ⟨fun ⟨names, functions, free, preludes, bodies⟩ => ⟨names, functions, free, preludes, bodies⟩,
      fun h => ⟨h.names, h.functions, h.free, h.preludes, h.bodies⟩⟩

/-- If units declare nothing twice, then labels clash only where a function has the name of a unit and
a label that the unit declares before its functions. -/
theorem DeclareOnce.nodup_scopedNames_iff {units : List SourceUnit} (h : DeclareOnce units) :
    (units.flatMap fun unit => scopedNames unit.name unit.commands).Nodup ↔
      ∀ unit ∈ units, ∀ function ∈ functionsOf units, function.1 = unit.name →
        ∀ label ∈ labelNames unit.prelude, label ∉ labelNames function.2 := by
  rw [(flatMap_scopedNames_perm units).nodup_iff, List.nodup_append,
    and_iff_right (nodup_flatMap_keys h.names h.preludes), bodyLabels,
    and_iff_right (nodup_flatMap_keys h.functions h.bodies)]
  constructor
  · intro hapart unit hunit function hfunction hname label hprelude hbody
    refine hapart (unit.name, label) ?_ (function.1, label) ?_ (by rw [hname])
    · exact List.mem_flatMap.2 ⟨unit, hunit, List.mem_map_of_mem hprelude⟩
    · exact List.mem_flatMap.2 ⟨function, hfunction, List.mem_map_of_mem hbody⟩
  · rintro hapart label hlabel label' hlabel' rfl
    obtain ⟨unit, hunit, hlabel⟩ := List.mem_flatMap.1 hlabel
    obtain ⟨function, hfunction, hlabel'⟩ := List.mem_flatMap.1 hlabel'
    obtain ⟨name, hprelude, rfl⟩ := List.mem_map.1 hlabel
    obtain ⟨name', hbody, heq⟩ := List.mem_map.1 hlabel'
    obtain ⟨hname, rfl⟩ := Prod.mk.inj heq
    exact hapart unit hunit function hfunction hname name' hprelude hbody

end Lowering

end HackToolchain
