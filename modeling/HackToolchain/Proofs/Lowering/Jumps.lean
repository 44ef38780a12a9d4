import HackToolchain.Proofs.Assembly.Loops
import HackToolchain.Proofs.Lowering.Frame
import HackToolchain.Proofs.Lowering.Labels

/-!
# The plain jumps of generated code

A comparison, a `goto`, a call and a return jump without a condition, and so does the halt. Before
such a jump A is computed, or the address of a label is loaded. Only a `goto` and the halt have that
load as the first instruction of their block, so only they can jump to it.
-/

namespace HackToolchain

namespace Lowering

open Assembly hiding Fault

/-- A comparison up to its jump without a condition. -/
def compareUntilJump (label : String) (condition : Jump) : Block :=
  popD ++ [setA (.decSource .a), setD (.subD .m), load (label ++ "_TRUE"), jumpIf .d condition] ++
    replaceTop .zero ++ [load (label ++ "_END")]

theorem beforeJumps_compare (name : String) (id : Nat) {condition : Jump}
    (h : condition ≠ .always) :
    beforeJumps (compare name id condition) =
      [compareUntilJump (name ++ "_" ++ toString id) condition] := by
  have hblock : compare name id condition =
      compareUntilJump (name ++ "_" ++ toString id) condition ++ jump ::
        (.label (name ++ "_" ++ toString id ++ "_TRUE") :: replaceTop .minusOne ++
          [.label (name ++ "_" ++ toString id ++ "_END")]) := by
    simp [compare, compareUntilJump]
  rw [hblock]
  apply beforeJumps_append_cons _ rfl rfl
  cases condition with
  | always => exact absurd rfl h
  | _ => rfl

namespace Placed

/-- What stands before a plain jump of a command: the load of its `goto` alone, the load of a label
that it generates or of the function that it calls, behind another instruction, or a computation. -/
inductive IsGuarded (placed : Placed) : Block → Prop
  | goto {context : Context} {name : String} (h : placed = ⟨context, .goto name⟩) :
      IsGuarded placed [load (context.scopedLabel name)]
  | loaded (start : Block) (i : Instruction Computation) (symbol : String)
      (h : symbol ∈ placed.generated ∨ ∃ context args, placed = ⟨context, .call symbol args⟩) :
      IsGuarded placed (start ++ [.instruction i, load symbol])
  | computed (start : Block) (c : Computation) :
      IsGuarded placed (start ++ [.instruction (.compute c)])

theorem isGuarded_compareUntilJump {placed : Placed} {label : String} (condition : Jump)
    (h : label ++ "_END" ∈ placed.generated) : placed.IsGuarded (compareUntilJump label condition) :=
  .loaded (popD ++ [setA (.decSource .a), setD (.subD .m), load (label ++ "_TRUE"),
    jumpIf .d condition] ++ [loadPointer .sp, setA (.decSource .m)]) _ _ (.inl h)

theorem isGuarded_of_mem_beforeJumps {placed : Placed} {head : Block}
    (h : head ∈ beforeJumps placed.block) : placed.IsGuarded head := by
  have hnone (hnone : placed.block.any Statement.isPlainJump = false) : placed.IsGuarded head := by
    simp [beforeJumps_eq_nil hnone] at h
  obtain ⟨context, command⟩ := placed
  cases command with
  | operate operator =>
      have hcompare {name : String} {condition : Jump} (hcondition : condition ≠ .always)
          (hmem : head ∈ beforeJumps (compare name context.nextId condition))
          (hend : name ++ "_" ++ toString context.nextId ++ "_END" ∈
            generated ⟨context, .operate operator⟩) :
          IsGuarded ⟨context, .operate operator⟩ head := by
        rw [beforeJumps_compare name _ hcondition, List.mem_singleton] at hmem
        exact hmem ▸ isGuarded_compareUntilJump condition hend
      cases operator with
      | eq | gt | lt =>
          exact hcompare (by decide) h (List.mem_cons_of_mem _ List.mem_cons_self)
      | _ => exact hnone rfl
  | push segment index => cases segment <;> exact hnone rfl
  | pop segment index => cases segment <;> exact hnone rfl
  | goto name =>
      obtain rfl := List.mem_singleton.1 h
      exact .goto rfl
  | call name args =>
      rw [block, Lowering.block, callBlock_eq, beforeJumps_append_cons rfl rfl rfl,
        List.mem_singleton] at h
      have hhead : callHead (name ++ "$$ret." ++ toString context.nextId) name args =
          (callHead (name ++ "$$ret." ++ toString context.nextId) name args).dropLast.dropLast ++
            [setM .d, load name] := rfl
      rw [h, hhead]
      exact .loaded _ _ _ (.inr ⟨context, args, rfl⟩)
  | ret =>
      rw [block, Lowering.block, returnBlock_eq, beforeJumps_append_cons rfl rfl rfl,
        List.mem_singleton] at h
      have hhead : returnHead = returnHead.dropLast ++ [setA (.source .m)] := rfl
      rw [h, hhead]
      exact .computed _ _
  | _ => exact hnone rfl

end Placed

end Lowering

end HackToolchain
