import HackToolchain.Lowering.Emitter

/-!
# What emitting leaves behind

A command with a defect leaves an emitter as it is. Any other command adds its lines to the output and
changes the context: `linesOf` and `Context.after` say how, from the context before the command alone.
Everything that is proved about listings starts from these two.
-/

namespace HackToolchain

namespace Lowering

open Vm
open Assembly hiding Fault

def drawsId : Command → Bool
  | .operate operator => operator.isComparison
  | .function .. | .call .. => true
  | _ => false

/-- The function whose body follows a command. -/
def functionAfter (command : Command) (function : Option String) : Option String :=
  match command with
  | .function name _ => some name
  | _ => function

def Context.after (context : Context) (command : Command) : Context where
  unit := context.unit
  function := functionAfter command context.function
  nextId := if drawsId command then context.nextId + 1 else context.nextId

theorem Context.nextId_le_after (context : Context) (command : Command) :
    context.nextId ≤ (context.after command).nextId := by
  unfold after
  split <;> simp

theorem Context.nextId_after_le (context : Context) (command : Command) :
    (context.after command).nextId ≤ context.nextId + 1 := by
  unfold after
  split <;> simp

def operatorBlock (id : Nat) : Operator → Block
  | .neg => replaceTop (.negSource .m)
  | .not => replaceTop (.notSource .m)
  | .add => combine (.add .m)
  | .sub => combine (.subD .m)
  | .and => combine (.and .m)
  | .or => combine (.or .m)
  | .eq => compare "EQ" id .eq
  | .gt => compare "GT" id .gt
  | .lt => compare "LT" id .lt

/-- The block of a command. If the command draws a number, it is the next one of the context. -/
def block (context : Context) : Command → Block
  | .operate operator => operatorBlock context.nextId operator
  | .push segment index => readCell context segment index ++ pushD
  | .pop segment index => popCell context segment index
  | .label name => [.label (context.scopedLabel name)]
  | .goto name => [load (context.scopedLabel name), jump]
  | .ifGoto name => popD ++ [load (context.scopedLabel name), jumpIf .d .ne]
  | .function name locals => functionBlock context.nextId name locals
  | .call name args => callBlock context.nextId name args
  | .ret => returnBlock

def linesOf (context : Context) (command : Command) : List Line :=
  .comment command.text :: (block context command).map .statement

namespace Emitter

variable (emitter : Emitter)

def append (lines : List Line) : Emitter :=
  { emitter with output := emitter.output.append (lines.map Line.render) }

/-- The emitter after a command without a defect. -/
def after (command : Command) : Emitter :=
  { emitter.append (linesOf emitter.context command) with
    context := emitter.context.after command }

theorem append_append (first second : List Line) :
    (emitter.append first).append second = emitter.append (first ++ second) := by
  simp [append, Listing.append_append]

theorem append_comment_block (text : String) (block : Block) :
    (emitter.append [.comment text]).append (block.map .statement) =
      emitter.append (.comment text :: block.map .statement) :=
  emitter.append_append _ _

/-- Writing a command takes an emitter behind the comment to the one after the command. -/
theorem run_writeCommand (command : Command) :
    (Emission.writeCommand command).run (emitter.append [.comment command.text]) =
      ((), emitter.after command) := by
  rw [after, linesOf, ← append_comment_block]
  cases command with
  | operate operator => cases operator <;> rfl
  -- a push and a conditional jump write their blocks in two parts
  | push segment index =>
      rw [block, List.map_append, ← append_append]
      rfl
  | ifGoto name =>
      rw [block, List.map_append, ← append_append]
      rfl
  | _ => rfl

variable {command : Command}

theorem run_emit (h : command.check = .ok ()) :
    emitter.run (emit command) = (.ok (), emitter.after command) := by
  have hwritten := congrArg Prod.snd (emitter.run_writeCommand command)
  rw [run, emit, h]
  exact congrArg (Prod.mk (Except.ok ())) hwritten

theorem run_emit_of_error {fault : Fault} (h : command.check = .error fault) :
    emitter.run (emit command) = (.error fault, emitter) := by
  rw [run, emit, h]
  rfl

theorem fst_run_emit_eq_ok_iff (command : Command) :
    (emitter.run (emit command)).1 = .ok () ↔ command.check = .ok () := by
  cases h : command.check with
  | error fault => simp [emitter.run_emit_of_error h]
  | ok checked => simp [emitter.run_emit h]

/-- Lines that were written are there for the steps behind them, whatever comes of these. -/
theorem run_write_bind {α : Type} (lines : List Line) (steps : Unit → ExceptT Fault Emission α) :
    emitter.run ((Emission.write lines : ExceptT Fault Emission Unit) >>= steps) =
      (emitter.append lines).run (steps ()) :=
  rfl

theorem run_emitBootstrap (entry : String) :
    emitter.run (emitBootstrap entry) =
      (emitter.append bootstrapLines).run (emit (.call entry 0)) :=
  emitter.run_write_bind bootstrapLines fun _ => emit (.call entry 0)

theorem output_emitHalt :
    (emitHalt.run emitter).2.output =
      (emitter.append (haltLines emitter.context.nextId)).output :=
  rfl

end Emitter

end Lowering

end HackToolchain
