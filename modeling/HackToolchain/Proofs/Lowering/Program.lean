import HackToolchain.Lowering.Draft
import HackToolchain.Proofs.Assembly.Image
import HackToolchain.Proofs.Lowering.Emitter

/-!
# Programs as placed commands

The listing of a program is that of its commands, each in the context in which it stands, between a
bootstrap or a halt. `Program.ofUnits` places the commands of units, and `lower` succeeds exactly
when no unit has a fault, with the lines of that program.
-/

namespace HackToolchain

namespace Lowering

open Vm
open Assembly hiding Fault

structure Placed where
  context : Context
  command : Command
  deriving Repr, DecidableEq

namespace Placed

def lines (placed : Placed) : List Line :=
  linesOf placed.context placed.command

def block (placed : Placed) : Block :=
  Lowering.block placed.context placed.command

end Placed

def place : Context → List Command → List Placed
  | _, [] => []
  | context, command :: rest => ⟨context, command⟩ :: place (context.after command) rest

theorem unit_of_mem_place {context : Context} {commands : List Command} {placed : Placed}
    (h : placed ∈ place context commands) : placed.context.unit = context.unit := by
  induction commands generalizing context with
  | nil => simp [place] at h
  | cons command rest ih =>
      rw [place] at h
      rcases List.mem_cons.1 h with rfl | h
      · rfl
      · have hunit := ih h
        exact hunit

def Context.afterAll (context : Context) (commands : List Command) : Context :=
  commands.foldl Context.after context

@[simp] theorem Context.afterAll_nil (context : Context) : context.afterAll [] = context := rfl

@[simp] theorem Context.afterAll_cons (context : Context) (command : Command)
    (rest : List Command) :
    context.afterAll (command :: rest) = (context.after command).afterAll rest := rfl

/-- The commands of a unit up to the first line that is none. -/
def SourceUnit.scan (unit : SourceUnit) : Text.Scan Fault Command :=
  Text.scan readLine unit.text

def SourceUnit.commands (unit : SourceUnit) : List Command :=
  unit.scan.items.map (·.value)

def placeUnits : Context → List SourceUnit → List Placed
  | _, [] => []
  | context, unit :: rest =>
    place (context.enterUnit unit.name) unit.commands ++
      placeUnits ((context.enterUnit unit.name).afterAll unit.commands) rest

theorem exists_unit_of_mem_placeUnits {context : Context} {units : List SourceUnit}
    {placed : Placed} (h : placed ∈ placeUnits context units) :
    ∃ unit ∈ units, placed.context.unit = unit.name := by
  induction units generalizing context with
  | nil => simp [placeUnits] at h
  | cons unit rest ih =>
      rw [placeUnits] at h
      rcases List.mem_append.1 h with h | h
      · exact ⟨unit, List.mem_cons_self, unit_of_mem_place h⟩
      · obtain ⟨other, hother, hunit⟩ := ih h
        exact ⟨other, List.mem_cons_of_mem unit hother, hunit⟩

def Context.afterUnits (context : Context) (units : List SourceUnit) : Context :=
  units.foldl (fun context unit => (context.enterUnit unit.name).afterAll unit.commands) context

/-- A program: whether it starts with a bootstrap, its commands, and the next number. -/
structure Program where
  bootstrap : Bool
  commands : List Placed
  nextId : Nat

namespace Program

def prologue (program : Program) : List Line :=
  if program.bootstrap then bootstrapLines else []

def epilogue (program : Program) : List Line :=
  if program.bootstrap then [] else haltLines program.nextId

def lines (program : Program) : List Line :=
  program.prologue ++ program.commands.flatMap Placed.lines ++ program.epilogue

def statements (program : Program) : Block :=
  statementsOf program.lines

def entry (config : Config) : List Command :=
  if config.bootstrap then [.call config.entry 0] else []

def initialContext (config : Config) : Context :=
  (Context.ofUnit "").afterAll (entry config)

def ofUnits (config : Config) (units : List SourceUnit) : Program where
  bootstrap := config.bootstrap
  commands := place (.ofUnit "") (entry config) ++ placeUnits (initialContext config) units
  nextId := ((initialContext config).afterUnits units).nextId

theorem exists_unit_of_mem_ofUnits {config : Config} {units : List SourceUnit} {placed : Placed}
    (h : placed ∈ (ofUnits config units).commands) :
    placed.command = .call config.entry 0 ∨
      ∃ unit ∈ units, placed.context.unit = unit.name := by
  rcases List.mem_append.1 h with h | h
  · left
    rw [entry] at h
    split at h
    · rw [place, place, List.mem_singleton] at h
      rw [h]
    · simp [place] at h
  · exact .inr (exists_unit_of_mem_placeUnits h)

end Program

/-- Nothing is wrong with a unit. -/
structure SourceUnit.IsValid (unit : SourceUnit) : Prop where
  name : Symbol.isName unit.name = true
  fault : unit.scan.fault? = none

instance (unit : SourceUnit) : Decidable unit.IsValid :=
  decidable_of_iff (Symbol.isName unit.name = true ∧ unit.scan.fault? = none)
    ⟨fun h => ⟨h.1, h.2⟩, fun h => ⟨h.1, h.2⟩⟩

theorem defect?_of_readLine {line : String} {command : Command}
    (h : readLine line = .ok (some command)) : command.defect? = none := by
  rw [readLine] at h
  split at h
  · simp at h
  · cases hcommand : readCommand (String.ofList (Text.code line.toList)) with
    | error fault => simp [hcommand, Except.map] at h
    | ok other =>
        obtain rfl : other = command := by simpa [hcommand, Except.map] using h
        exact defect?_of_readCommand hcommand

/-- Commands without a defect, one after another, add the lines of the placed commands. -/
theorem Emitter.foldl_after (emitter : Emitter) (commands : List Command) :
    commands.foldl Emitter.after emitter =
      { emitter.append ((place emitter.context commands).flatMap Placed.lines) with
        context := emitter.context.afterAll commands } := by
  induction commands generalizing emitter with
  | nil => simp [place, append, Listing.append]
  | cons command rest ih =>
      rw [List.foldl_cons, ih, place, List.flatMap_cons]
      refine congrArg (Emitter.mk _) ?_
      simp only [append, after, Placed.lines, Listing.append_append, List.map_append]

namespace Draft

/-- The draft after a command without a defect. -/
def afterCommand (draft : Draft) (command : Command) : Draft :=
  { draft with toEmitter := draft.after command, commandCount := draft.commandCount + 1 }

theorem toEmitter_foldl_afterCommand (draft : Draft) (commands : List Command) :
    (commands.foldl afterCommand draft).toEmitter = commands.foldl Emitter.after draft.toEmitter := by
  induction commands generalizing draft with
  | nil => rfl
  | cons command rest ih => exact ih _

theorem bootstrap_foldl_afterCommand (draft : Draft) (commands : List Command) :
    (commands.foldl afterCommand draft).bootstrap = draft.bootstrap := by
  induction commands generalizing draft with
  | nil => rfl
  | cons command rest ih => exact ih _

theorem addLine_of_readLine {line : String} {command : Command}
    (h : readLine line = .ok (some command)) (draft : Draft) :
    draft.addLine line = (.ok (), draft.afterCommand command) := by
  have hcheck := Command.check_eq_ok_iff.2 (defect?_of_readLine h)
  rw [addLine, h]
  show draft.addCommand command = _
  rw [addCommand, Emitter.run_emit _ hcheck]
  rfl

/-- Adding lines is reading them up to the first fault and emitting what was read. The check of the
emitter cannot fail there, since a line whose command has a defect is not read. -/
theorem addLines_eq (draft : Draft) (first : Nat) (ls : List String) :
    draft.addLines first ls =
      (match (Text.scanLines readLine first ls).fault? with
        | some fault => .error fault
        | none => .ok (),
      ((Text.scanLines readLine first ls).items.map (·.value)).foldl afterCommand draft) := by
  induction ls generalizing draft first with
  | nil => rfl
  | cons line ls ih =>
      rw [addLines, Text.scanLines_cons]
      cases hread : readLine line with
      | error fault =>
          rw [addLine, hread]
          rfl
      | ok found =>
          cases found with
          | none =>
              rw [addLine, hread]
              exact ih draft (first + 1)
          | some command =>
              rw [addLine_of_readLine hread]
              exact ih _ (first + 1)

theorem addUnit_eq (draft : Draft) (unit : SourceUnit) :
    draft.addUnit unit =
      if Symbol.isName unit.name then
        (match unit.scan.fault? with
          | some fault => .error ⟨unit.name, fault.line, fault.value⟩
          | none => .ok (),
        unit.commands.foldl afterCommand (draft.enterUnit unit.name))
      else (.error ⟨unit.name, 0, .invalidUnitName unit.name⟩, draft) := by
  rw [addUnit, addLines_eq, SourceUnit.commands, SourceUnit.scan, Text.scan]
  cases (Text.scanLines readLine 1 (Text.lines unit.text)).fault? <;> rfl

theorem addUnit_eq_ok_iff (draft next : Draft) (unit : SourceUnit) :
    draft.addUnit unit = (.ok (), next) ↔
      unit.IsValid ∧ next = unit.commands.foldl afterCommand (draft.enterUnit unit.name) := by
  rw [addUnit_eq]
  by_cases hname : Symbol.isName unit.name = true
  · cases hfault : unit.scan.fault? with
    | none =>
        have hvalid : unit.IsValid := ⟨hname, hfault⟩
        simp [hname, hvalid, eq_comm]
    | some fault =>
        have hvalid : ¬unit.IsValid := fun h => by simp [h.fault] at hfault
        simp [hname, hvalid]
  · have hvalid : ¬unit.IsValid := fun h => hname h.name
    simp [hname, hvalid]

theorem exists_addUnits_iff (draft : Draft) (units : List SourceUnit) :
    (∃ full, draft.addUnits units = .ok full) ↔ ∀ unit ∈ units, unit.IsValid := by
  induction units generalizing draft with
  | nil => simp [addUnits]
  | cons unit rest ih =>
      rw [addUnits, List.forall_mem_cons]
      rcases hunit : draft.addUnit unit with ⟨fault | ⟨⟩, next⟩
      · have hvalid : ¬unit.IsValid := by
          intro hvalid
          have hok := (draft.addUnit_eq_ok_iff _ unit).2 ⟨hvalid, rfl⟩
          simp [hunit] at hok
        simp [hvalid]
      · have hvalid : unit.IsValid := ((draft.addUnit_eq_ok_iff next unit).1 hunit).1
        simpa [hvalid] using ih next

theorem of_addUnits {draft full : Draft} {units : List SourceUnit}
    (h : draft.addUnits units = .ok full) :
    full.bootstrap = draft.bootstrap ∧ full.toEmitter =
      { draft.append ((placeUnits draft.context units).flatMap Placed.lines) with
        context := draft.context.afterUnits units } := by
  induction units generalizing draft with
  | nil =>
      obtain rfl := Except.ok.inj h
      simp [Context.afterUnits, placeUnits, Emitter.append, Listing.append]
  | cons unit rest ih =>
      rw [addUnits] at h
      rcases hunit : draft.addUnit unit with ⟨fault | ⟨⟩, next⟩
      · simp [hunit] at h
      · rw [hunit] at h
        obtain ⟨-, hnext⟩ := (draft.addUnit_eq_ok_iff next unit).1 hunit
        obtain ⟨hbootstrap, hemitter⟩ := ih h
        have hfirst := toEmitter_foldl_afterCommand (draft.enterUnit unit.name) unit.commands
        rw [← hnext, Emitter.foldl_after] at hfirst
        refine ⟨hbootstrap.trans (hnext ▸ bootstrap_foldl_afterCommand _ _), ?_⟩
        rw [hemitter, hfirst, placeUnits, List.flatMap_append]
        refine congrArg (Emitter.mk _) ?_
        simp only [Emitter.append, Listing.append_append, List.map_append, enterUnit,
          Emitter.enterUnit]

/-- A draft is started when nothing is wrong with the entry. -/
theorem exists_start_iff (config : Config) :
    (∃ draft, start config = .ok draft) ↔
      ∀ command ∈ Program.entry config, command.defect? = none := by
  rw [start, Program.entry]
  cases config.bootstrap with
  | false => simp
  | true =>
      rw [if_pos rfl, if_pos rfl, List.forall_mem_singleton, ← Command.check_eq_ok_iff,
        Emitter.run_emitBootstrap]
      cases hcheck : (Command.call config.entry 0).check with
      | error fault => simp [Emitter.run_emit_of_error _ hcheck]
      | ok checked => simp [Emitter.run_emit _ hcheck]

theorem of_start {config : Config} {draft : Draft} (h : start config = .ok draft) :
    draft.bootstrap = config.bootstrap ∧ draft.toEmitter =
      { (Emitter.ofUnit "").append ((if config.bootstrap then bootstrapLines else []) ++
          (place (.ofUnit "") (Program.entry config)).flatMap Placed.lines) with
        context := Program.initialContext config } := by
  rw [start] at h
  rw [Program.initialContext, Program.entry]
  cases hbootstrap : config.bootstrap with
  | false =>
      rw [hbootstrap] at h
      obtain rfl := Except.ok.inj h
      exact ⟨rfl, rfl⟩
  | true =>
      rw [hbootstrap, if_pos rfl, Emitter.run_emitBootstrap] at h
      cases hcheck : (Command.call config.entry 0).check with
      | error fault => simp [Emitter.run_emit_of_error _ hcheck] at h
      | ok checked =>
          rw [Emitter.run_emit _ hcheck] at h
          obtain rfl := Except.ok.inj h
          refine ⟨rfl, congrArg (Emitter.mk _) ?_⟩
          simp only [Emitter.append, Listing.append_append, ← List.map_append]
          simp [place, Placed.lines, initial, Emitter.ofUnit]

theorem finish_eq (draft : Draft) :
    draft.finish = (draft.append
      (if draft.bootstrap then [] else haltLines draft.context.nextId)).output := by
  rw [finish, Emitter.output_emitHalt]
  cases draft.bootstrap with
  | false => rfl
  | true => simp [Emitter.append, Listing.append]

end Draft

/-- A program is lowered when nothing is wrong with its entry and its units, and its listing is that
of its placed commands. -/
theorem lower_eq_ok_iff {config : Config} {units : List SourceUnit} {listing : Listing} :
    lower config units = .ok listing ↔
      (∀ command ∈ Program.entry config, command.defect? = none) ∧
      (∀ unit ∈ units, unit.IsValid) ∧
      listing = .ofLines (Program.ofUnits config units).lines.toArray := by
  rw [lower, ← Draft.exists_start_iff]
  cases hstart : Draft.start config with
  | error fault => simp [bind, Except.bind]
  | ok draft =>
      rw [← draft.exists_addUnits_iff]
      cases hunits : draft.addUnits units with
      | error fault => simp [bind, Except.bind, hunits]
      | ok full =>
          obtain ⟨hbootstrap, hemitter⟩ := Draft.of_start hstart
          obtain ⟨hbootstrap', hemitter'⟩ := Draft.of_addUnits hunits
          have hlines : full.finish = .ofLines (Program.ofUnits config units).lines.toArray := by
            rw [Draft.finish_eq, hbootstrap', hbootstrap, hemitter', hemitter,
              Listing.ofLines_toArray]
            simp only [Emitter.append, Emitter.ofUnit, Listing.append_append, ← List.map_append,
              Program.lines, Program.prologue, Program.epilogue, Program.ofUnits,
              List.flatMap_append, List.append_assoc]
            rfl
          simp [bind, Except.bind, hunits, pure, Except.pure, hlines, eq_comm]

end Lowering

end HackToolchain
