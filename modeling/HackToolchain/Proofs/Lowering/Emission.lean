import HackToolchain.Proofs.Lowering.Labels
import Mathlib.Data.List.DropRight

/-!
# Emitting one command after another

A caller has commands emitted, goes on to other units and asks for numbers and for the symbols of
labels, in any order. A command with a defect is refused before anything is written, so nothing
changes. Any other command adds lines behind those that are there, draws at most one number and
changes the function whose body follows only if it declares one. So lines stay as they are, numbers
only grow, and the function is the last one declared in the unit.

What a caller sees of this is the answers to its calls and the emitter before and after each of them.
The numbers that were drawn are those by which the next number went up.
-/

namespace HackToolchain

namespace Lowering

open Vm
open Assembly hiding Fault

/-- The commands that draw a number: comparisons, and those that declare or call a function. -/
inductive Draws : Command → Prop
  | eq : Draws (.operate .eq)
  | gt : Draws (.operate .gt)
  | lt : Draws (.operate .lt)
  | function (name : String) (locals : Word) : Draws (.function name locals)
  | call (name : String) (args : Word) : Draws (.call name args)

theorem drawsId_iff {command : Command} : drawsId command = true ↔ Draws command := by
  constructor
  · intro h
    cases command with
    | operate operator =>
        cases operator with
        | eq => exact .eq
        | gt => exact .gt
        | lt => exact .lt
        | _ => cases h
    | function name locals => exact .function name locals
    | call name args => exact .call name args
    | _ => cases h
  · intro h
    cases h <;> rfl

theorem functionAfter_of_ne {command : Command}
    (h : ∀ name locals, command ≠ .function name locals) (function : Option String) :
    functionAfter command function = function := by
  cases command with
  | function name locals => exact absurd rfl (h name locals)
  | _ => rfl

/-- The block of a command that draws a number declares a label with it. -/
theorem exists_isGenerated_of_draws {command : Command} (h : Draws command) (context : Context) :
    ∃ label ∈ labels (block context command), IsGenerated context.nextId label := by
  have hgenerated : (Placed.mk context command).generated ≠ [] := by
    cases h <;> simp [Placed.generated, operatorBlock, labels_compare]
  obtain ⟨label, hlabel⟩ := List.exists_mem_of_ne_nil _ hgenerated
  refine ⟨label, ?_, (Placed.isGenerated_of_mem_generated hlabel).2⟩
  exact (Placed.labels_block ⟨context, command⟩).symm ▸ List.mem_append_right _ hlabel

namespace Emitter

inductive Call
  | emit (command : Command)
  | enterUnit (unit : String)
  | freshId
  | scopedLabel (label : String)
  deriving Repr, DecidableEq

inductive Answer
  | done
  | refused (fault : Fault)
  | id (id : Nat)
  | symbol (symbol : String)
  deriving Repr, DecidableEq

def perform (emitter : Emitter) : Call → Answer × Emitter
  | .emit command =>
    match emitter.run (Lowering.emit command) with
    | (.ok (), next) => (.done, next)
    | (.error fault, next) => (.refused fault, next)
  | .enterUnit unit => (.done, emitter.enterUnit unit)
  | .freshId =>
    let (id, next) := Emission.freshId.run emitter
    (.id id, next)
  | .scopedLabel label => (.symbol (emitter.context.scopedLabel label), emitter)

def performAll (emitter : Emitter) (calls : List Call) : Emitter :=
  calls.foldl (fun emitter call => (emitter.perform call).2) emitter

def history (emitter : Emitter) : List Call → List (Call × Answer)
  | [] => []
  | call :: calls => (call, (emitter.perform call).1) :: (emitter.perform call).2.history calls

/-- The numbers that are used up between two emitters. -/
def usedUp (before after : Emitter) : List Nat :=
  List.range' before.context.nextId (after.context.nextId - before.context.nextId)

def drawn (emitter : Emitter) : List Call → List Nat
  | [] => []
  | call :: calls => emitter.usedUp (emitter.perform call).2 ++ (emitter.perform call).2.drawn calls

def Call.entersUnit : Call → Bool
  | .enterUnit _ => true
  | _ => false

/-- The function that a call declares. A command that is refused declares none. -/
def declared? : Call × Answer → Option String
  | (.emit (.function name _), .done) => some name
  | _ => none

/-- The functions that are declared in the unit in which a history ends, in order. -/
def functionsInUnit (history : List (Call × Answer)) : List String :=
  (history.rtakeWhile (!·.1.entersUnit)).filterMap declared?

/-- How a command without a defect is emitted: its written form as a comment and then a block are
added, and a number is drawn and the function changed only by the commands that are meant to. The
number that is drawn is that of a label in the block. -/
structure Appends (emitter : Emitter) (command : Command) (next : Emitter) : Prop where
  lines : ∃ block : Block, next.output.lines.toList =
      emitter.output.lines.toList ++ ("// " ++ command.text) :: block.map Statement.render ∧
    (Draws command → ∃ label ∈ labels block, IsGenerated emitter.context.nextId label)
  unit : next.context.unit = emitter.context.unit
  numbered : Draws command → next.context.nextId = emitter.context.nextId + 1
  unnumbered : ¬Draws command → next.context.nextId = emitter.context.nextId
  declared : ∀ name locals, command = .function name locals → next.context.function = some name
  kept : (∀ name locals, command ≠ .function name locals) →
    next.context.function = emitter.context.function

inductive Change (emitter : Emitter) : Call → Answer × Emitter → Prop
  | refused {command : Command} {fault : Fault} (h : command.check = .error fault) :
      Change emitter (.emit command) (.refused fault, emitter)
  | emitted {command : Command} (h : command.check = .ok ()) :
      Change emitter (.emit command) (.done, emitter.after command)
  | entered (unit : String) : Change emitter (.enterUnit unit) (.done, emitter.enterUnit unit)
  | numbered : Change emitter .freshId
      (.id emitter.context.nextId, { emitter with context := emitter.context.freshId.2 })
  | answered (label : String) :
      Change emitter (.scopedLabel label) (.symbol (emitter.context.scopedLabel label), emitter)

theorem change_perform (emitter : Emitter) (call : Call) :
    emitter.Change call (emitter.perform call) := by
  cases call with
  | emit command =>
      rw [perform]
      cases h : command.check with
      | ok checked =>
          rw [run_emit _ h]
          exact .emitted h
      | error fault =>
          rw [run_emit_of_error _ h]
          exact .refused h
  | enterUnit unit => exact .entered unit
  | freshId => exact .numbered
  | scopedLabel label => exact .answered label

/-- A command is refused for its defect and only for that, and then nothing changes. -/
theorem perform_emit_eq_refused_iff {emitter next : Emitter} {command : Command} {fault : Fault} :
    emitter.perform (.emit command) = (.refused fault, next) ↔
      command.check = .error fault ∧ next = emitter := by
  have hchange := emitter.change_perform (.emit command)
  generalize emitter.perform (.emit command) = result at hchange
  cases hchange with
  | refused h => simp [h, eq_comm]
  | emitted h => simp [h]

theorem exists_appends {command : Command} (h : command.check = .ok ()) (emitter : Emitter) :
    ∃ next, emitter.perform (.emit command) = (.done, next) ∧ emitter.Appends command next := by
  refine ⟨emitter.after command, ?_, ⟨block emitter.context command, ?_, ?_⟩, rfl, ?_, ?_, ?_, ?_⟩
  · rw [perform, run_emit _ h]
  · rw [after, append, linesOf]
    simp [Listing.append, Line.render]
  · exact fun hdraws => exists_isGenerated_of_draws hdraws emitter.context
  · exact fun hdraws => if_pos (drawsId_iff.2 hdraws)
  · exact fun hdraws => if_neg (mt drawsId_iff.1 hdraws)
  · rintro name locals rfl
    rfl
  · exact fun hne => functionAfter_of_ne hne _

namespace Change

variable {emitter : Emitter} {call : Call} {result : Answer × Emitter}
  (h : emitter.Change call result)
include h

theorem prefix_lines : emitter.output.lines.toList <+: result.2.output.lines.toList := by
  cases h with
  | emitted hcheck => exact ⟨_, Array.toList_appendList.symm⟩
  | _ => exact List.prefix_refl _

/-- No number comes back, and a call uses up at most one. -/
theorem nextId_mem_Icc :
    emitter.context.nextId ≤ result.2.context.nextId ∧
      result.2.context.nextId ≤ emitter.context.nextId + 1 := by
  cases h with
  | @emitted command hcheck =>
      exact ⟨emitter.context.nextId_le_after command, emitter.context.nextId_after_le command⟩
  | _ => simp [enterUnit, Context.enterUnit, Context.freshId]

/-- The function stays the same unless the call goes on to a unit or declares a function. -/
theorem function_eq :
    result.2.context.function = if call.entersUnit then none
      else (declared? (call, result.1)).or emitter.context.function := by
  cases h with
  | @emitted command hcheck =>
      cases command <;> rfl
  | @refused command fault hcheck =>
      cases command <;> rfl
  | _ => rfl

end Change

theorem performAll_cons (emitter : Emitter) (call : Call) (calls : List Call) :
    emitter.performAll (call :: calls) = (emitter.perform call).2.performAll calls :=
  rfl

theorem performAll_concat (emitter : Emitter) (calls : List Call) (call : Call) :
    emitter.performAll (calls ++ [call]) = ((emitter.performAll calls).perform call).2 :=
  List.foldl_concat ..

theorem history_concat (emitter : Emitter) (calls : List Call) (call : Call) :
    emitter.history (calls ++ [call]) =
      emitter.history calls ++ [(call, ((emitter.performAll calls).perform call).1)] := by
  induction calls generalizing emitter with
  | nil => rfl
  | cons first calls ih => exact congrArg (_ :: ·) (ih _)

/-- Lines that are there stay as they are, and the others come behind them. -/
theorem prefix_lines_performAll (emitter : Emitter) (calls : List Call) :
    emitter.output.lines.toList <+: (emitter.performAll calls).output.lines.toList := by
  induction calls generalizing emitter with
  | nil => exact List.prefix_refl _
  | cons call calls ih => exact (change_perform emitter call).prefix_lines.trans (ih _)

theorem nextId_performAll_mem_Icc (emitter : Emitter) (calls : List Call) :
    emitter.context.nextId ≤ (emitter.performAll calls).context.nextId ∧
      (emitter.performAll calls).context.nextId ≤ emitter.context.nextId + calls.length := by
  induction calls generalizing emitter with
  | nil => exact ⟨le_refl _, le_refl _⟩
  | cons call calls ih =>
      obtain ⟨hle, hstep⟩ := (change_perform emitter call).nextId_mem_Icc
      obtain ⟨hrest, hrun⟩ := ih (emitter.perform call).2
      rw [performAll_cons, List.length_cons]
      omega

/-- The numbers are drawn one after another, without a gap. -/
theorem drawn_eq_usedUp (emitter : Emitter) (calls : List Call) :
    emitter.drawn calls = emitter.usedUp (emitter.performAll calls) := by
  induction calls generalizing emitter with
  | nil => simp [drawn, usedUp, performAll]
  | cons call calls ih =>
      have hfirst := (change_perform emitter call).nextId_mem_Icc
      have hrest := (emitter.perform call).2.nextId_performAll_mem_Icc calls
      rw [drawn, ih, performAll_cons, usedUp, usedUp, usedUp]
      -- the numbers of the first call and of the rest are ranges that meet
      generalize (emitter.perform call).2.performAll calls = last at *
      generalize (emitter.perform call).2 = next at *
      obtain ⟨first, hnext⟩ := Nat.exists_eq_add_of_le hfirst.1
      obtain ⟨rest, hlast⟩ := Nat.exists_eq_add_of_le hrest.1
      rw [hlast, hnext, Nat.add_sub_cancel_left, Nat.add_sub_cancel_left, Nat.add_assoc,
        Nat.add_sub_cancel_left, List.range'_append_1]

theorem functionsInUnit_concat (history : List (Call × Answer)) (last : Call × Answer) :
    functionsInUnit (history ++ [last]) = if last.1.entersUnit then []
      else functionsInUnit history ++ (declared? last).toList := by
  cases h : last.1.entersUnit with
  | true => simp [functionsInUnit, h]
  | false => cases hfunction : declared? last <;> simp [functionsInUnit, h, hfunction]

/-- The function is the last one that is declared in the unit. Before the first one there is none,
or the one that was there if no call went on to a unit. -/
theorem function_performAll (emitter : Emitter) (calls : List Call) :
    (emitter.performAll calls).context.function =
      (functionsInUnit (emitter.history calls)).getLast?.or
        (if calls.any Call.entersUnit then none else emitter.context.function) := by
  -- the last call decides, so the induction takes calls off the end
  induction calls using List.reverseRecOn with
  | nil => rfl
  | append_singleton calls call ih =>
      rw [performAll_concat, (change_perform _ call).function_eq, history_concat,
        functionsInUnit_concat, ih, List.any_append]
      cases hunit : call.entersUnit with
      | true => simp [hunit]
      | false =>
          cases declared? (call, ((emitter.performAll calls).perform call).1) <;> simp [hunit]

/-- From any start and after any calls, a command is refused only for its defect, and then nothing
changes. A command without a defect is emitted behind the lines that are there. Lines that were
written stay, every number is greater than those drawn before it, and the function is the last one
declared in the unit. -/
theorem emission_is_atomic (start : Emitter) (calls : List Call) :
    let emitter := start.performAll calls
    (∀ command fault next, emitter.perform (.emit command) = (.refused fault, next) ↔
      command.check = .error fault ∧ next = emitter) ∧
    (∀ command, command.check = .ok () → ∃ next,
      emitter.perform (.emit command) = (.done, next) ∧ emitter.Appends command next) ∧
    (emitter.perform .freshId).1 = .id emitter.context.nextId ∧
    (∀ later, emitter.output.lines.toList <+: (emitter.performAll later).output.lines.toList) ∧
    start.drawn calls = List.range' start.context.nextId (start.drawn calls).length ∧
    (start.drawn calls).Pairwise (· < ·) ∧
    emitter.context.nextId = start.context.nextId + (start.drawn calls).length ∧
    emitter.context.function = (functionsInUnit (start.history calls)).getLast?.or
      (if calls.any Call.entersUnit then none else start.context.function) := by
  have hlength : (start.drawn calls).length =
      (start.performAll calls).context.nextId - start.context.nextId := by
    rw [drawn_eq_usedUp, usedUp, List.length_range']
  have hrange : start.drawn calls =
      List.range' start.context.nextId (start.drawn calls).length := by
    rw [hlength]
    exact drawn_eq_usedUp start calls
  refine ⟨fun _ _ _ => perform_emit_eq_refused_iff, fun _ h => exists_appends h _, rfl,
    prefix_lines_performAll _, hrange, ?_, ?_, function_performAll start calls⟩
  · rw [hrange]
    exact List.pairwise_lt_range'
  · have hle := (start.nextId_performAll_mem_Icc calls).1
    rw [hlength, Nat.add_sub_cancel' hle]

/-- Two refused commands in a row leave the function and the numbers alone. -/
theorem emission_is_atomic_mixed :
    let calls : List Call := [.emit (.function "Main.f" 0), .emit (.pop .constant 0),
      .emit (.function "9" 0), .emit (.operate .eq), .freshId]
    let start : Emitter := .ofUnit "Main"
    start.drawn calls = [0, 1, 2] ∧ (start.performAll calls).context.function = some "Main.f" := by
  intro calls start
  obtain ⟨-, -, -, -, hdrawn, -, -, hfunction⟩ := emission_is_atomic start calls
  exact ⟨hdrawn.trans (by decide +kernel), hfunction.trans (by decide +kernel)⟩

end Emitter

end Lowering

end HackToolchain
