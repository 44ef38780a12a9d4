import HackToolchain.Proofs.Lowering.Layout

/-!
# The numbers of commands

Commands draw their numbers one after another, so the number of a command that draws one is smaller
than the numbers of all commands behind it, and smaller than the number of the halt. A command draws
at most one, so a program has at least as many commands as numbers, and a counter of 32 bits is enough
for any program of fewer than `2 ^ 32` commands.
-/

namespace HackToolchain

namespace Lowering

open Vm
open Assembly hiding Fault

def Placed.nextId (placed : Placed) : Nat :=
  (placed.context.after placed.command).nextId

theorem Context.nextId_le_afterAll (context : Context) (commands : List Command) :
    context.nextId ≤ (context.afterAll commands).nextId := by
  induction commands generalizing context with
  | nil => exact Nat.le_refl _
  | cons command rest ih => exact Nat.le_trans (context.nextId_le_after command) (ih _)

theorem Context.nextId_le_afterUnits (context : Context) (units : List SourceUnit) :
    context.nextId ≤ (context.afterUnits units).nextId := by
  induction units generalizing context with
  | nil => exact Nat.le_refl _
  | cons unit rest ih =>
      exact Nat.le_trans ((context.enterUnit unit.name).nextId_le_afterAll unit.commands) (ih _)

theorem Context.nextId_afterAll_le (context : Context) (commands : List Command) :
    (context.afterAll commands).nextId ≤ context.nextId + commands.length := by
  induction commands generalizing context with
  | nil => exact Nat.le_refl _
  | cons command rest ih =>
      have hfirst := context.nextId_after_le command
      have hrest := ih (context.after command)
      rw [afterAll_cons, List.length_cons]
      omega

theorem length_place (context : Context) (commands : List Command) :
    (place context commands).length = commands.length := by
  induction commands generalizing context with
  | nil => rfl
  | cons command rest ih => exact congrArg (· + 1) (ih _)

theorem Context.nextId_afterUnits_le (context : Context) (units : List SourceUnit) :
    (context.afterUnits units).nextId ≤ context.nextId + (placeUnits context units).length := by
  induction units generalizing context with
  | nil => exact Nat.le_refl _
  | cons unit rest ih =>
      have hunit := (context.enterUnit unit.name).nextId_afterAll_le unit.commands
      have hrest := ih ((context.enterUnit unit.name).afterAll unit.commands)
      rw [placeUnits, List.length_append, length_place]
      exact Nat.le_trans hrest (by rw [← Nat.add_assoc]; exact Nat.add_le_add_right hunit _)

theorem nextId_of_mem_place {context : Context} {commands : List Command} {placed : Placed}
    (h : placed ∈ place context commands) :
    context.nextId ≤ placed.context.nextId ∧
      placed.nextId ≤ (context.afterAll commands).nextId := by
  induction commands generalizing context with
  | nil => simp [place] at h
  | cons command rest ih =>
      rw [place] at h
      rcases List.mem_cons.1 h with rfl | h
      · exact ⟨Nat.le_refl _, Context.nextId_le_afterAll _ rest⟩
      · obtain ⟨hge, hle⟩ := ih h
        exact ⟨Nat.le_trans (context.nextId_le_after command) hge, hle⟩

theorem pairwise_place (context : Context) (commands : List Command) :
    (place context commands).Pairwise fun p q => p.nextId ≤ q.context.nextId := by
  induction commands generalizing context with
  | nil => exact .nil
  | cons command rest ih =>
      exact .cons (fun placed h => (nextId_of_mem_place h).1) (ih _)

theorem nextId_of_mem_placeUnits {context : Context} {units : List SourceUnit} {placed : Placed}
    (h : placed ∈ placeUnits context units) :
    context.nextId ≤ placed.context.nextId ∧
      placed.nextId ≤ (context.afterUnits units).nextId := by
  induction units generalizing context with
  | nil => simp [placeUnits] at h
  | cons unit rest ih =>
      rw [placeUnits] at h
      rcases List.mem_append.1 h with h | h
      · obtain ⟨hge, hle⟩ := nextId_of_mem_place h
        exact ⟨hge, Nat.le_trans hle (Context.nextId_le_afterUnits _ rest)⟩
      · obtain ⟨hge, hle⟩ := ih h
        have hunit := (context.enterUnit unit.name).nextId_le_afterAll unit.commands
        exact ⟨Nat.le_trans hunit hge, hle⟩

theorem pairwise_placeUnits (context : Context) (units : List SourceUnit) :
    (placeUnits context units).Pairwise fun p q => p.nextId ≤ q.context.nextId := by
  induction units generalizing context with
  | nil => exact .nil
  | cons unit rest ih =>
      rw [placeUnits, List.pairwise_append]
      refine ⟨pairwise_place _ _, ih _, fun p hp q hq => ?_⟩
      exact Nat.le_trans (nextId_of_mem_place hp).2 (nextId_of_mem_placeUnits hq).1

namespace Program

theorem nextId_of_mem_ofUnits {config : Config} {units : List SourceUnit} {placed : Placed}
    (h : placed ∈ (ofUnits config units).commands) :
    placed.nextId ≤ (ofUnits config units).nextId := by
  rcases List.mem_append.1 h with h | h
  · exact Nat.le_trans (nextId_of_mem_place h).2 (Context.nextId_le_afterUnits _ units)
  · exact (nextId_of_mem_placeUnits h).2

theorem nextId_ofUnits_le (config : Config) (units : List SourceUnit) :
    (ofUnits config units).nextId ≤ (ofUnits config units).commands.length := by
  have hentry := (Context.ofUnit "").nextId_afterAll_le (entry config)
  have hunits := (initialContext config).nextId_afterUnits_le units
  rw [Context.ofUnit, Nat.zero_add] at hentry
  rw [ofUnits, List.length_append, length_place]
  exact Nat.le_trans hunits (Nat.add_le_add_right hentry _)

/-- The commands of a program draw their numbers one after another. -/
theorem pairwise_ofUnits (config : Config) (units : List SourceUnit) :
    (ofUnits config units).commands.Pairwise fun p q => p.nextId ≤ q.context.nextId := by
  rw [ofUnits, List.pairwise_append]
  refine ⟨pairwise_place _ _, pairwise_placeUnits _ _, fun p hp q hq => ?_⟩
  exact Nat.le_trans (nextId_of_mem_place hp).2 (nextId_of_mem_placeUnits hq).1

end Program

end Lowering

end HackToolchain
