import HackToolchain.Assembly.Assemble
import HackToolchain.CommandLine.Options
import HackToolchain.Machine.Run

/-!
# The tool

`execute` carries out a list of arguments on any storage. A subcommand reads what it needs, computes,
and only when nothing can fail any more writes its one output; `run` writes no file at all.
-/

namespace HackToolchain

namespace CommandLine

/-- What the tool leaves behind besides files. -/
structure Outcome where
  exitCode : Nat
  stdout : String
  stderr : String
  deriving Repr, DecidableEq

def printed (ls : List String) : String :=
  ls.foldl (fun text line => text ++ line ++ "\n") ""

/-- What a subcommand prints when it succeeds. -/
structure Report where
  results : List String
  summary : String
  deriving Repr, DecidableEq

def Outcome.ofExcept : Except Failure Report → Outcome
  | .ok report => ⟨0, printed report.results, printed [report.summary]⟩
  | .error failure => ⟨failure.exitCode, "", printed failure.report⟩

section

variable {m : Type → Type} [Monad m] [Storage m]

def attempt {ε α : Type} (failure : ε → Failure) (action : m (Except ε α)) : ExceptT Failure m α :=
  ExceptT.mk ((·.mapError failure) <$> action)

def ofResult {ε α : Type} (failure : ε → Failure) (result : Except ε α) : ExceptT Failure m α :=
  attempt failure (pure result)

def readFile (path : Path) : ExceptT Failure m String :=
  attempt (.cannotRead path) (Storage.readText path)

def writeFile (path : Path) (text : String) : ExceptT Failure m Unit :=
  attempt (.cannotWrite path) (Storage.writeText path text)

/-- Files to translate, and the output that is written if no other is asked for. -/
structure Sources where
  files : List Path
  output : Path

/-- The names with the extension of source files, in increasing order. -/
def sourceNames (names : List String) : List String :=
  (names.filter fun name => (Path.mk name).hasExtension "vm").mergeSort fun a b => !(b < a)

/-- The name of a directory: the one in its path, or else its own. -/
def directoryName (directory : Path) : ExceptT Failure m String := do
  match directory.fileName? with
  | some name => return name
  | none =>
    let own? : Option String ← (Storage.ownName? directory : m (Option String))
    match own? with
    | some name => return name
    | none => throw (.unnamedOutput directory)

def directorySources (directory : Path) : ExceptT Failure m Sources := do
  let found ← attempt (.cannotRead directory) (Storage.fileNames directory)
  let names := sourceNames found
  if names.isEmpty then throw (.noSources directory)
  let name ← directoryName directory
  return ⟨names.map directory.join, directory.join (name ++ ".asm")⟩

def findSources (input : Path) (isDirectory : Bool) : ExceptT Failure m Sources :=
  if isDirectory then directorySources input
  else if input.hasExtension "vm" then return ⟨[input], input.withExtension "asm"⟩
  else throw (.notTranslatable input)

/-- Reads a unit and appends it. Its name is the name of the file without the extension. -/
def translateFile (draft : Lowering.Draft) (path : Path) : ExceptT Failure m Lowering.Draft := do
  let text ← readFile path
  let (result, next) := draft.addUnit ⟨path.stem?.getD "", text⟩
  ofResult .lowering result
  return next

def translate (options : TranslateOptions) : ExceptT Failure m Report := do
  let isDirectory : Bool ← (Storage.isDirectory options.input : m Bool)
  let sources ← findSources options.input isDirectory
  let config := ⟨options.bootstrap?.getD isDirectory, options.entry⟩
  let start ← ofResult .lowering (Lowering.Draft.start config)
  let draft ← sources.files.foldlM translateFile start
  let listing := draft.finish
  let output := options.output?.getD sources.output
  writeFile output listing.toText
  let commands := draft.commandCount
  let instructions := listing.instructionCount
  return ⟨[], s!"translated {commands} commands ({instructions} instructions) -> {output.text}"⟩

def assemble (input output : Path) : ExceptT Failure m Report := do
  let text ← readFile input
  let code ← ofResult .assembly (Assembly.assemble text)
  writeFile output code.toText
  return ⟨[], s!"assembled {code.size} words -> {output.text}"⟩

/-- The program in a file: a listing if the extension says so, else machine code. -/
def loadProgram (path : Path) : ExceptT Failure m MachineCode := do
  let text ← readFile path
  if path.hasExtension "asm" then ofResult .assembly (Assembly.assemble text)
  else ofResult .machineCode (MachineCode.ofText text)

def cellLine (ram : Memory) (address : Nat) : String :=
  s!"RAM[{address}] = {Word.signed (ram.read (.ofNat address))}"

def run (options : RunOptions) : ExceptT Failure m Report := do
  let code ← loadProgram options.input
  let (result, cpu) := (Machine.Cpu.load code).run options.maxCycles
  let cycles ← ofResult .machine result
  let addresses := List.range' options.first (options.last - options.first)
  return ⟨addresses.map (cellLine cpu.ram), s!"halted after {cycles} cycles"⟩

def perform (subcommand : Subcommand) : List String → ExceptT Failure m Report
  | [] => throw (.missingInput subcommand)
  | input :: flags =>
    match subcommand with
    | .translate => do
      let options ← ofResult id (TranslateOptions.read { input := ⟨input⟩ } flags)
      translate options
    | .assemble => assemble ⟨input⟩ (assembleOutput ⟨input⟩ flags)
    | .run => do
      let options ← ofResult id (RunOptions.read { input := ⟨input⟩ } flags)
      run options

def isHelp (argument : String) : Bool :=
  argument ∈ ["--help", "-h", "help"]

def execute : List String → m Outcome
  | [] => return .ofExcept (.error .noSubcommand)
  | name :: arguments =>
    match Subcommand.ofName? name with
    | some subcommand => return .ofExcept (← (perform subcommand arguments).run)
    | none =>
      if isHelp name then return ⟨0, "", printed usageLines⟩
      else return .ofExcept (.error (.unknownSubcommand name))

end

end CommandLine

end HackToolchain
