import HackToolchain.Proofs.Lowering.Layout
import HackToolchain.Proofs.Vm.Effect

/-!
# The stack machine

A state of the stack machine is the number of the next command and the contents of RAM. Each command
has its effect on RAM and says which command comes next: mostly the one after it, for jumps and
calls the one that declares their symbol, and for a return the one that starts at the return
address. A state is safe when the guard of its command holds, and a run goes from safe state to safe
state.
-/

namespace HackToolchain

namespace Lowering

open Vm

structure State where
  next : Nat
  ram : Memory

/-- A cell that is reached through a pointer is one that a program can use. -/
def segmentGuard (ram : Memory) (segment : Segment) (index : Word) : Prop :=
  ∀ p, segment.base = .pointer p → Memory.isUsable (ram.pointer p + index) = true

/-- What has to hold of RAM where a command is executed. -/
def guard (ram : Memory) : Command → Prop
  | .operate operator => ram.hasTop ∧ (operator.isUnary = false → ram.drop.hasTop)
  | .push segment index =>
    Memory.isStackCell (ram.pointer .sp) = true ∧ segmentGuard ram segment index
  | .pop segment index => ram.hasTop ∧ segmentGuard ram segment index
  | .label _ | .goto _ => True
  | .ifGoto _ => ram.hasTop
  | .function _ locals => ram.hasRoom locals.toNat
  | .call _ _ => ram.hasRoom 5
  | .ret => ram.hasTop ∧ ram.hasFrame

namespace Program

/-- The command that declares a symbol. -/
def declaration? (program : Program) (symbol : String) : Option Nat :=
  program.commands.findIdx? fun placed => placed.declared? == some symbol

/-- The first command at an address. The end of the program counts as a command. -/
def commandAt? (program : Program) (address : Word) : Option Nat :=
  (List.range (program.commands.length + 1)).find? fun k => .ofNat (program.start k) == address

/-- One command of the stack machine, with `cells` for the static cells. -/
def step? (program : Program) (cells : String → Word) (state : State) : Option State :=
  match program.commands[state.next]? with
  | none => none
  | some ⟨context, command⟩ =>
    let static := fun index => cells (context.staticSymbol index)
    let ram := state.ram
    match command with
    | .operate operator => some ⟨state.next + 1, ram.operate operator⟩
    | .push segment index => some ⟨state.next + 1, ram.push (segment.value static ram index)⟩
    | .pop segment index => some ⟨state.next + 1, ram.popInto (segment.cell? static ram index)⟩
    | .label _ => some ⟨state.next + 1, ram⟩
    | .goto name => (program.declaration? (context.scopedLabel name)).map (⟨·, ram⟩)
    | .ifGoto name =>
      if ram.top = 0 then some ⟨state.next + 1, ram.drop⟩
      else (program.declaration? (context.scopedLabel name)).map (⟨·, ram.drop⟩)
    | .function _ locals => some ⟨state.next + 1, Memory.pushZeros locals.toNat ram⟩
    | .call name args =>
      (program.declaration? name).map
        (⟨·, ram.pushFrame (.ofNat (program.start (state.next + 1))) args⟩)
    | .ret => (program.commandAt? ram.returnAddress).map (⟨·, ram.popFrame⟩)

/-- A state in which the guard of the next command holds, and from which a return goes to a
command. -/
def Safe (program : Program) (state : State) : Prop :=
  ∀ placed ∈ program.commands[state.next]?, guard state.ram placed.command ∧
    (placed.command = .ret → (program.commandAt? state.ram.returnAddress).isSome = true)

/-- A number of commands lead from one state to another through safe states. -/
inductive Run (program : Program) (cells : String → Word) : Nat → State → State → Prop
  | refl (state : State) : Run program cells 0 state state
  | cons {n : Nat} {state next final : State} (safe : program.Safe state)
      (step : program.step? cells state = some next) (rest : Run program cells n next final) :
      Run program cells (n + 1) state final

/-- A command that is no return is safe where its guard holds. -/
theorem Run.cons_of_guard {program : Program} {cells : String → Word} {n k : Nat} {ram : Memory}
    {context : Context} {command : Command} {next final : State}
    (h : program.commands[k]? = some ⟨context, command⟩) (hguard : guard ram command)
    (hret : command ≠ .ret) (hstep : program.step? cells ⟨k, ram⟩ = some next)
    (hrest : program.Run cells n next final) : program.Run cells (n + 1) ⟨k, ram⟩ final := by
  have hsafe : program.Safe ⟨k, ram⟩ := by
    intro placed hplaced
    obtain rfl := Option.some.inj (h.symm.trans hplaced)
    exact ⟨hguard, fun heq => absurd heq hret⟩
  exact .cons hsafe hstep hrest

/-- Every symbol that a command jumps to is declared. -/
def IsClosed (program : Program) : Prop :=
  ∀ placed ∈ program.commands, ∀ symbol ∈ placed.target?,
    ∃ other ∈ program.commands, other.declared? = some symbol

end Program

end Lowering

end HackToolchain
