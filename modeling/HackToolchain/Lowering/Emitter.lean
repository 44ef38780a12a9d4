import HackToolchain.Lowering.Block

/-!
# Emitting commands

An emitter holds the listing that is being written and the context in which it goes on. A command is
checked before anything is written; then its written form is added as a comment, and its block behind
it. The block is written where the context is at that moment: a declaration makes its function the one
whose body follows, and a comparison, a declaration and a call draw the number of their labels.

A fault takes nothing back, so the emitter after it is what the steps before it made.
-/

namespace HackToolchain

namespace Lowering

open Vm
open Assembly hiding Fault

structure Emitter where
  context : Context
  output : Listing
  deriving Repr, DecidableEq

/-- A step that changes an emitter and cannot fail. -/
abbrev Emission := StateM Emitter

namespace Emission

def write (lines : List Line) : Emission Unit :=
  modify fun emitter => { emitter with output := emitter.output.append (lines.map Line.render) }

def writeBlock (block : Block) : Emission Unit :=
  write (block.map .statement)

def freshId : Emission Nat :=
  modifyGet fun emitter =>
    let (id, context) := emitter.context.freshId
    (id, { emitter with context := context })

def enterFunction (name : String) : Emission Unit :=
  modify fun emitter => { emitter with context := { emitter.context with function := some name } }

def writeComparison (name : String) (condition : Jump) : Emission Unit := do
  let id ← freshId
  writeBlock (compare name id condition)

def writeOperator : Operator → Emission Unit
  | .neg => writeBlock (replaceTop (.negSource .m))
  | .not => writeBlock (replaceTop (.notSource .m))
  | .add => writeBlock (combine (.add .m))
  | .sub => writeBlock (combine (.subD .m))
  | .and => writeBlock (combine (.and .m))
  | .or => writeBlock (combine (.or .m))
  | .eq => writeComparison "EQ" .eq
  | .gt => writeComparison "GT" .gt
  | .lt => writeComparison "LT" .lt

def writeFunction (name : String) (locals : Word) : Emission Unit := do
  enterFunction name
  let id ← freshId
  writeBlock (functionBlock id name locals)

def writeCall (name : String) (args : Word) : Emission Unit := do
  let id ← freshId
  writeBlock (callBlock id name args)

def writeCommand : Command → Emission Unit
  | .operate operator => writeOperator operator
  | .push segment index => do
    let context := (← get).context
    writeBlock (readCell context segment index)
    writeBlock pushD
  | .pop segment index => do
    let context := (← get).context
    writeBlock (popCell context segment index)
  | .label name => do
    let context := (← get).context
    writeBlock [.label (context.scopedLabel name)]
  | .goto name => do
    let context := (← get).context
    writeBlock [load (context.scopedLabel name), jump]
  | .ifGoto name => do
    writeBlock popD
    let context := (← get).context
    writeBlock [load (context.scopedLabel name), jumpIf .d .ne]
  | .function name locals => writeFunction name locals
  | .call name args => writeCall name args
  | .ret => writeBlock returnBlock

end Emission

/-- Writes a command, unless it has a defect. -/
def emit (command : Command) : ExceptT Fault Emission Unit := do
  command.check
  Emission.write [.comment command.text]
  Emission.writeCommand command

def emitBootstrap (entry : String) : ExceptT Fault Emission Unit := do
  Emission.write bootstrapLines
  emit (.call entry 0)

def emitHalt : Emission Unit := do
  let id ← Emission.freshId
  Emission.write (haltLines id)

namespace Emitter

def ofUnit (unit : String) : Emitter :=
  ⟨.ofUnit unit, .empty⟩

def enterUnit (emitter : Emitter) (unit : String) : Emitter :=
  { emitter with context := emitter.context.enterUnit unit }

/-- What comes of steps that can fail, and the emitter after them. -/
def run {α : Type} (emitter : Emitter) (steps : ExceptT Fault Emission α) :
    Except Fault α × Emitter :=
  steps.run.run emitter

end Emitter

end Lowering

end HackToolchain
