import HackToolchain.CommandLine.Failure
import HackToolchain.Text.Decimal

/-!
# Options

The first argument of a subcommand is its input, whatever it looks like; flags follow. Flags are read
from the left, and of two that set the same thing the later counts. `assemble` looks only at the two
arguments after its input.
-/

namespace HackToolchain

namespace CommandLine

structure TranslateOptions where
  input : Path
  output? : Option Path := none
  bootstrap? : Option Bool := none
  entry : String := Lowering.defaultEntry
  deriving Repr, DecidableEq

def TranslateOptions.read (options : TranslateOptions) :
    List String → Except Failure TranslateOptions
  | [] => .ok options
  | flag :: rest =>
    if flag = "--bootstrap" then { options with bootstrap? := some true }.read rest
    else if flag = "--no-bootstrap" then { options with bootstrap? := some false }.read rest
    else if flag = "-o" then
      match rest with
      | value :: rest => { options with output? := some ⟨value⟩ }.read rest
      | [] => .error (.missingValue flag)
    else if flag = "--entry" then
      match rest with
      | value :: rest => { options with entry := value }.read rest
      | [] => .error (.missingValue flag)
    else .error (.unexpectedArgument flag)

def assembleOutput (input : Path) : List String → Path
  | "-o" :: value :: _ => ⟨value⟩
  | _ => input.withExtension "hack"

def defaultMaxCycles : Nat := 10000000

/-- What `run` was asked for: the cells from `first` up to but not including `last` are shown. -/
structure RunOptions where
  input : Path
  maxCycles : Nat := defaultMaxCycles
  first : Nat := 0
  last : Nat := 16
  deriving Repr, DecidableEq

/-- Reads a number of cycles, which has to fit into 64 bits. -/
def readCycleCount (value : String) : Except Failure Nat :=
  match Text.unsignedBelow? UInt64.size value.toList with
  | some count => .ok count
  | none => .error (.invalidCycleCount value)

def readBounds? (value : String) : Option (Nat × Nat) := do
  let (first, last) ← Text.splitFirst ['.', '.'] value.toList
  let first ← Text.unsignedBelow? UInt16.size first
  let last ← Text.unsignedBelow? UInt16.size last
  if first ≤ last then some (first, last) else none

def readRange (value : String) : Except Failure (Nat × Nat) :=
  match readBounds? value with
  | some bounds => .ok bounds
  | none => .error (.invalidRange value)

def RunOptions.read (options : RunOptions) : List String → Except Failure RunOptions
  | [] => .ok options
  | flag :: rest =>
    if flag = "--max-cycles" then
      match rest with
      | value :: rest =>
        match readCycleCount value with
        | .ok count => { options with maxCycles := count }.read rest
        | .error failure => .error failure
      | [] => .error (.missingValue flag)
    else if flag = "--ram" then
      match rest with
      | value :: rest =>
        match readRange value with
        | .ok (first, last) => { options with first := first, last := last }.read rest
        | .error failure => .error failure
      | [] => .error (.missingValue flag)
    else .error (.unexpectedArgument flag)

end CommandLine

end HackToolchain
