import HackToolchain.Assembly.Fault
import HackToolchain.CommandLine.Storage
import HackToolchain.Lowering.Draft
import HackToolchain.Machine.Cpu
import HackToolchain.MachineCode.Binary

/-!
# Failures of the command line

Every way in which the tool can fail, what it then prints, and its exit code. A program that was
loaded and then stopped by a fault of the machine ends the tool with code 3, all other failures with
code 1.
-/

namespace HackToolchain

namespace CommandLine

inductive Subcommand
  | translate
  | assemble
  | run
  deriving Repr, DecidableEq

namespace Subcommand

def name : Subcommand → String
  | translate => "translate"
  | assemble => "assemble"
  | run => "run"

def arguments : Subcommand → String
  | translate => "<input.vm|dir> [-o output.asm] [--bootstrap|--no-bootstrap] [--entry NAME]"
  | assemble => "<input.asm> [-o output.hack]"
  | run => "<input.hack|input.asm> [--max-cycles N] [--ram A..B]"

/-- What a subcommand needs at least. -/
def requirement : Subcommand → String
  | translate => "an input file or directory"
  | assemble | run => "an input file"

def all : List Subcommand :=
  [translate, assemble, run]

def ofName? (text : String) : Option Subcommand :=
  all.find? (·.name == text)

end Subcommand

inductive Failure
  /-- There are no arguments. -/
  | noSubcommand
  | unknownSubcommand (name : String)
  | missingInput (subcommand : Subcommand)
  | missingValue (flag : String)
  | unexpectedArgument (argument : String)
  | invalidCycleCount (value : String)
  | invalidRange (value : String)
  | cannotRead (path : Path) (fault : StorageFault)
  | cannotWrite (path : Path) (fault : StorageFault)
  | noSources (directory : Path)
  /-- A directory has no name to name the output after. -/
  | unnamedOutput (directory : Path)
  | notTranslatable (path : Path)
  | lowering (fault : Lowering.UnitFault)
  | assembly (fault : Text.Numbered Assembly.Fault)
  | machineCode (fault : Text.Numbered BinaryFault)
  | machine (fault : Machine.Fault)
  deriving Repr, DecidableEq

def usageLines : List String :=
  ["Usage: hackvm <command> [args]",
   "",
   "Commands:",
   "  translate <input.vm|dir> [-o output.asm] [--bootstrap|--no-bootstrap] [--entry NAME]",
   "                                          Translate VM code to assembly",
   "  assemble <input.asm> [-o output.hack]   Assemble to machine code text",
   "  run <input.hack|input.asm> [--max-cycles N] [--ram A..B]",
   "                                          Execute on the CPU emulator"]

namespace Failure

def report : Failure → List String
  | noSubcommand => usageLines
  | unknownSubcommand name => s!"error: unknown command '{name}'" :: "" :: usageLines
  | missingInput subcommand =>
    [s!"error: {subcommand.name} requires {subcommand.requirement}",
     s!"Usage: hackvm {subcommand.name} {subcommand.arguments}"]
  | missingValue flag => [s!"error: {flag} requires a value"]
  | unexpectedArgument argument => [s!"error: unexpected argument '{argument}'"]
  | invalidCycleCount value => [s!"error: invalid cycle count '{value}'"]
  | invalidRange value => [s!"error: invalid RAM range '{value}' (expected A..B)"]
  | cannotRead path fault => [s!"error: cannot read '{path.text}': {fault.message}"]
  | cannotWrite path fault => [s!"error: cannot write '{path.text}': {fault.message}"]
  | noSources directory => [s!"error: no .vm files in '{directory.text}'"]
  | unnamedOutput directory => [s!"error: cannot name output for '{directory.text}'"]
  | notTranslatable path => [s!"error: '{path.text}' is not a .vm file or a directory"]
  | lowering fault => [s!"error: {fault.message}"]
  | assembly fault => [s!"error: {Assembly.Fault.message fault}"]
  | machineCode fault => [s!"error: invalid machine code: {BinaryFault.message fault}"]
  | machine fault => [s!"runtime error: {fault.message}"]

def exitCode : Failure → Nat
  | machine _ => 3
  | _ => 1

end Failure

end CommandLine

end HackToolchain
