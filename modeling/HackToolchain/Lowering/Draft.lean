import HackToolchain.Lowering.Emitter
import HackToolchain.Text.Scan
import HackToolchain.Vm.Reader

/-!
# The draft of a listing

A program is a sequence of units, each with a name and a text. It is lowered by emitting all its
commands in order. Either a bootstrap that calls an entry function comes first, or an endless loop
that stops the computer comes last. A unit that cannot be read to its end contributes the commands
before its first bad line, and further units can be added to the draft.
-/

namespace HackToolchain

namespace Lowering

open Vm
open Assembly hiding Fault

/-- A unit of source. Its name scopes its static cells and the labels before its first function. -/
structure SourceUnit where
  name : String
  text : String
  deriving Repr, DecidableEq

/-- Reads a line of a unit, after its comment is dropped. -/
def readLine (line : String) : Except Fault (Option Command) :=
  match Text.code line.toList with
  | [] => .ok none
  | code => (readCommand (String.ofList code)).map some

/-- The function that a bootstrap calls if no other is asked for. -/
def defaultEntry : String := "Sys.init"

structure Config where
  bootstrap : Bool := false
  entry : String := defaultEntry
  deriving Repr, DecidableEq

/-- A fault with the unit and the line at which it is. Line zero is the unit as a whole, and a fault
before the first unit is in the unit with the empty name. -/
structure UnitFault where
  unit : String
  line : Nat
  fault : Fault
  deriving Repr, DecidableEq

def UnitFault.message (fault : UnitFault) : String :=
  s!"{fault.unit}:{fault.line}: {fault.fault.message}"

structure Draft extends Emitter where
  bootstrap : Bool
  commandCount : Nat

namespace Draft

def initial : Draft :=
  ⟨.ofUnit "", false, 0⟩

def start (config : Config) : Except UnitFault Draft :=
  if config.bootstrap then
    match initial.run (emitBootstrap config.entry) with
    | (.error fault, _) => .error ⟨"", 0, fault⟩
    | (.ok (), emitter) => .ok ⟨emitter, true, 0⟩
  else .ok initial

def addCommand (draft : Draft) (command : Command) : Except Fault Unit × Draft :=
  match draft.run (emit command) with
  | (.error fault, emitter) => (.error fault, { draft with toEmitter := emitter })
  | (.ok (), emitter) =>
    (.ok (), { draft with toEmitter := emitter, commandCount := draft.commandCount + 1 })

def addLine (draft : Draft) (line : String) : Except Fault Unit × Draft :=
  match readLine line with
  | .error fault => (.error fault, draft)
  | .ok none => (.ok (), draft)
  | .ok (some command) => draft.addCommand command

/-- Adds lines of which the first has the number `first`, up to the first fault. -/
def addLines (draft : Draft) (first : Nat) :
    List String → Except (Text.Numbered Fault) Unit × Draft
  | [] => (.ok (), draft)
  | line :: rest =>
    match draft.addLine line with
    | (.error fault, next) => (.error ⟨first, fault⟩, next)
    | (.ok (), next) => next.addLines (first + 1) rest

def enterUnit (draft : Draft) (name : String) : Draft :=
  { draft with toEmitter := draft.toEmitter.enterUnit name }

/-- Adds the lines of a unit, which needs a valid name. -/
def addUnit (draft : Draft) (unit : SourceUnit) : Except UnitFault Unit × Draft :=
  if Symbol.isName unit.name then
    match (draft.enterUnit unit.name).addLines 1 (Text.lines unit.text) with
    | (.error fault, next) => (.error ⟨unit.name, fault.line, fault.value⟩, next)
    | (.ok (), next) => (.ok (), next)
  else (.error ⟨unit.name, 0, .invalidUnitName unit.name⟩, draft)

def finish (draft : Draft) : Listing :=
  if draft.bootstrap then draft.output
  else (emitHalt.run draft.toEmitter).2.output

def addUnits (draft : Draft) : List SourceUnit → Except UnitFault Draft
  | [] => .ok draft
  | unit :: rest =>
    match draft.addUnit unit with
    | (.ok (), next) => addUnits next rest
    | (.error fault, _) => .error fault

end Draft

def lower (config : Config) (units : List SourceUnit) : Except UnitFault Listing := do
  let draft ← Draft.start config
  let full ← draft.addUnits units
  return full.finish

end Lowering

end HackToolchain
