import HackToolchain.CommandLine.Tool
import HackToolchain.Proofs.CommandLine.FileTree
import HackToolchain.Proofs.CommandLine.Options

/-!
# The tool on a tree of files

On a tree an action has a result and leaves a tree behind. Actions that only read are described by
their result, and so are chains of them. Each subcommand reads first: `run` computes its report from
what it read, and `translate` and `assemble` compute a `Job`, the text of one file, which is written
when nothing has failed.
-/

namespace HackToolchain

namespace CommandLine

/-- A file to write, and what is printed when it was written. -/
structure Job where
  output : Path
  text : String
  report : Report

namespace FileTree

variable {α β ε : Type} {tree : FileTree}

/-- The result of an action on a tree, and the tree afterwards. -/
def act (tree : FileTree) (action : ExceptT Failure (StateM FileTree) α) :
    Except Failure α × FileTree :=
  action.run.run tree

def execute (tree : FileTree) (arguments : List String) : Outcome × FileTree :=
  (CommandLine.execute arguments : StateM FileTree Outcome).run tree

/-- Writes the file of a job that nothing has prevented. -/
def carryOut (tree : FileTree) : Except Failure Job → Except Failure Report × FileTree
  | .error failure => (.error failure, tree)
  | .ok job =>
    match tree.writeText job.output job.text with
    | (.ok (), after) => (.ok job.report, after)
    | (.error fault, after) => (.error (.cannotWrite job.output fault), after)

section Chains

theorem act_ofResult (tree : FileTree) (failure : ε → Failure) (result : Except ε α) :
    tree.act (ofResult failure result) = (result.mapError failure, tree) := rfl

theorem act_ofResult_id (tree : FileTree) (result : Except Failure α) :
    tree.act (ofResult id result) = (result, tree) := by
  rw [act_ofResult]
  cases result <;> rfl

theorem act_readFile (tree : FileTree) (path : Path) :
    tree.act (readFile path) = ((tree.readText path).mapError (.cannotRead path), tree) := rfl

variable {action : ExceptT Failure (StateM FileTree) α} {result : Except Failure α}
  {next : α → ExceptT Failure (StateM FileTree) β}

theorem act_bind_ok {a : α} (h : tree.act action = (.ok a, tree)) :
    tree.act (action >>= next) = tree.act (next a) := by
  have hrun : action.run.run tree = (.ok a, tree) := h
  simp only [act, ExceptT.run_bind, StateT.run_bind, hrun]
  rfl

theorem act_bind_error {failure : Failure} (h : tree.act action = (.error failure, tree)) :
    tree.act (action >>= next) = (.error failure, tree) := by
  have hrun : action.run.run tree = (.error failure, tree) := h
  simp only [act, ExceptT.run_bind, StateT.run_bind, hrun]
  rfl

theorem act_bind_reads {results : α → Except Failure β} (h : tree.act action = (result, tree))
    (hnext : ∀ a, tree.act (next a) = (results a, tree)) :
    tree.act (action >>= next) = (result >>= results, tree) := by
  cases result with
  | error failure => exact act_bind_error h
  | ok a => exact (act_bind_ok h).trans (hnext a)

/-- A job may depend on what was read before. -/
theorem act_bind_carryOut {next : α → ExceptT Failure (StateM FileTree) Report}
    {jobs : α → Except Failure Job} (h : tree.act action = (result, tree))
    (hnext : ∀ a, tree.act (next a) = tree.carryOut (jobs a)) :
    tree.act (action >>= next) = tree.carryOut (result >>= jobs) := by
  cases result with
  | error failure => exact act_bind_error h
  | ok a => exact (act_bind_ok h).trans (hnext a)

theorem act_writeFile_bind (tree : FileTree) (output : Path) (text : String) (report : Report) :
    tree.act (writeFile output text >>= fun _ => pure report) =
      tree.carryOut (.ok ⟨output, text, report⟩) := by
  have hrun : (writeFile output text : ExceptT Failure (StateM FileTree) Unit).run.run tree =
      ((tree.writeText output text).1.mapError (.cannotWrite output),
        (tree.writeText output text).2) := rfl
  simp only [act, ExceptT.run_bind, StateT.run_bind, hrun, carryOut]
  rcases tree.writeText output text with ⟨_ | ⟨⟩, after⟩ <;> rfl

/-- A job is done when it was found and its file was written. -/
theorem carryOut_eq_ok_iff {after : FileTree} {job? : Except Failure Job} {report : Report} :
    tree.carryOut job? = (.ok report, after) ↔ ∃ job, job? = .ok job ∧ job.report = report ∧
      tree.writeText job.output job.text = (.ok (), after) := by
  cases job? with
  | error failure => simp [carryOut]
  | ok job =>
      rcases hwrite : tree.writeText job.output job.text with ⟨_ | ⟨⟩, found⟩ <;>
        simp [carryOut, hwrite]

/-- A job fails when there is none or its file cannot be written; nothing is written then. -/
theorem of_carryOut_eq_error {after : FileTree} {job? : Except Failure Job} {failure : Failure}
    (h : tree.carryOut job? = (.error failure, after)) : after = tree ∧
      (job? = .error failure ∨
        ∃ job reason, job? = .ok job ∧ failure = .cannotWrite job.output reason) := by
  cases job? with
  | error found =>
      obtain ⟨rfl, rfl⟩ := by simpa [carryOut] using h
      exact ⟨rfl, .inl rfl⟩
  | ok job =>
      rw [carryOut, writeText] at h
      cases htarget : tree.target job.output with
      | ok place => simp [htarget] at h
      | error reason =>
          obtain ⟨rfl, rfl⟩ := by simpa [htarget] using h
          exact ⟨rfl, .inr ⟨job, reason, rfl, rfl⟩⟩

theorem act_foldlM {f : β → α → ExceptT Failure (StateM FileTree) β}
    {g : β → α → Except Failure β} (h : ∀ b a, tree.act (f b a) = (g b a, tree)) (xs : List α)
    (b : β) : tree.act (xs.foldlM f b) = (xs.foldlM g b, tree) := by
  induction xs generalizing b with
  | nil => rfl
  | cons x xs ih =>
      rw [List.foldlM_cons, List.foldlM_cons]
      exact act_bind_reads (h b x) ih

end Chains

theorem execute_cons (tree : FileTree) (subcommand : Subcommand) (arguments : List String) :
    tree.execute (subcommand.name :: arguments) =
      (tree.act (perform subcommand arguments)).map .ofExcept id := by
  cases subcommand <;> rfl

/-- Without a subcommand the tool prints how it is used or that it knows no such subcommand. -/
theorem execute_cases (arguments : List String) :
    (∃ subcommand rest, arguments = Subcommand.name subcommand :: rest) ∨
      (∀ tree, execute tree arguments = (⟨0, "", printed usageLines⟩, tree)) ∨
      ∃ failure, failure.exitCode = 1 ∧
        ∀ tree, execute tree arguments = (.ofExcept (.error failure), tree) := by
  cases arguments with
  | nil => exact .inr (.inr ⟨.noSubcommand, rfl, fun _ => rfl⟩)
  | cons name rest =>
      cases hname : Subcommand.ofName? name with
      | some subcommand =>
          have heq : subcommand.name = name := eq_of_beq (List.find?_some hname :)
          exact .inl ⟨subcommand, rest, by rw [heq]⟩
      | none =>
          have hexecute (tree : FileTree) : tree.execute (name :: rest) =
              (if isHelp name then ⟨0, "", printed usageLines⟩
                else .ofExcept (.error (.unknownSubcommand name)), tree) := by
            rw [execute, CommandLine.execute, hname]
            cases isHelp name <;> rfl
          cases hhelp : isHelp name with
          | true => exact .inr (.inl fun tree => by rw [hexecute, hhelp]; rfl)
          | false =>
              refine .inr (.inr ⟨.unknownSubcommand name, rfl, fun tree => ?_⟩)
              rw [hexecute, hhelp]
              rfl

section Run

def program (tree : FileTree) (path : Path) : Except Failure MachineCode := do
  let text ← (tree.readText path).mapError (.cannotRead path)
  if path.hasExtension "asm" then (Assembly.assemble text).mapError .assembly
  else (MachineCode.ofText text).mapError .machineCode

def runReport (options : RunOptions) (code : MachineCode) : Except Failure Report :=
  let stopped := (Machine.Cpu.load code).run options.maxCycles
  (stopped.1.mapError .machine).map fun cycles =>
    ⟨(List.range' options.first (options.last - options.first)).map (cellLine stopped.2.ram),
      s!"halted after {cycles} cycles"⟩

theorem act_loadProgram (tree : FileTree) (path : Path) :
    tree.act (loadProgram path) = (tree.program path, tree) := by
  refine act_bind_reads (act_readFile tree path) fun text => ?_
  split <;> rfl

theorem act_run (tree : FileTree) (options : RunOptions) :
    tree.act (run options) = (tree.program options.input >>= runReport options, tree) := by
  refine act_bind_reads (act_loadProgram tree options.input) fun code => ?_
  rw [runReport]
  generalize (Machine.Cpu.load code).run options.maxCycles = stopped
  obtain ⟨result, cpu⟩ := stopped
  cases result <;> rfl

theorem act_perform_run (tree : FileTree) (input : String) (flags : List String) :
    tree.act (perform .run (input :: flags)) =
      (do
        let options ← RunOptions.read { input := ⟨input⟩ } flags
        let code ← tree.program ⟨input⟩
        runReport options code, tree) := by
  refine (act_bind_reads (act_ofResult_id tree _) (act_run tree)).trans ?_
  cases hread : RunOptions.read { input := ⟨input⟩ } flags with
  | error failure => rfl
  | ok options =>
      have hinput : options.input = ⟨input⟩ := RunOptions.input_of_read hread
      exact congrArg (fun path => (tree.program path >>= runReport options, tree)) hinput

theorem execute_run (tree : FileTree) (input : String) (flags : List String) :
    tree.execute ("run" :: input :: flags) =
      (.ofExcept (do
        let options ← RunOptions.read { input := ⟨input⟩ } flags
        let code ← tree.program ⟨input⟩
        runReport options code), tree) :=
  (tree.execute_cons .run (input :: flags)).trans
    (congrArg (Prod.map Outcome.ofExcept id) (tree.act_perform_run input flags))

end Run

section Assemble

/-- The machine code of a listing that the tree holds, as a file to write. -/
def assembleJob (tree : FileTree) (input output : Path) : Except Failure Job := do
  let text ← (tree.readText input).mapError (.cannotRead input)
  let code ← (Assembly.assemble text).mapError .assembly
  return ⟨output, code.toText, ⟨[], s!"assembled {code.size} words -> {output.text}"⟩⟩

theorem act_assemble (tree : FileTree) (input output : Path) :
    tree.act (assemble input output) = tree.carryOut (tree.assembleJob input output) :=
  act_bind_carryOut (act_readFile tree input) fun _ =>
    act_bind_carryOut (act_ofResult tree _ _) fun _ => act_writeFile_bind tree _ _ _

theorem assembleJob_eq_ok_iff {input output : Path} {job : Job} :
    tree.assembleJob input output = .ok job ↔ ∃ text code, tree.readText input = .ok text ∧
      Assembly.assemble text = .ok code ∧
      job = ⟨output, code.toText, ⟨[], s!"assembled {code.size} words -> {output.text}"⟩⟩ := by
  constructor
  · intro h
    obtain ⟨text, hread, hcoded⟩ := exists_of_bind_eq_ok h
    obtain ⟨code, hcode, hdone⟩ := exists_of_bind_eq_ok hcoded
    exact ⟨text, code, mapError_eq_ok_iff.1 hread, mapError_eq_ok_iff.1 hcode,
      (Except.ok.inj hdone).symm⟩
  · rintro ⟨text, code, hread, hcode, rfl⟩
    rw [assembleJob, hread]
    show (Assembly.assemble text).mapError _ >>= _ = _
    rw [hcode]
    rfl

/-- A listing is not assembled when it is not there or the assembler has an error. -/
theorem of_assembleJob_eq_error {input output : Path} {failure : Failure}
    (h : tree.assembleJob input output = .error failure) :
    (∃ reason, failure = .cannotRead input reason) ∨
      ∃ text fault, tree.readText input = .ok text ∧ Assembly.assemble text = .error fault ∧
        failure = .assembly fault := by
  rcases of_bind_eq_error h with hread | ⟨text, hread, hcoded⟩
  · obtain ⟨reason, -, heq⟩ := mapError_eq_error_iff.1 hread
    exact .inl ⟨reason, heq.symm⟩
  · rcases of_bind_eq_error hcoded with hcode | ⟨code, -, hdone⟩
    · obtain ⟨fault, hfault, heq⟩ := mapError_eq_error_iff.1 hcode
      exact .inr ⟨text, fault, mapError_eq_ok_iff.1 hread, hfault, heq.symm⟩
    · cases hdone

theorem act_perform_assemble (tree : FileTree) (input : String) (flags : List String) :
    tree.act (perform .assemble (input :: flags)) =
      tree.carryOut (tree.assembleJob ⟨input⟩ (assembleOutput ⟨input⟩ flags)) :=
  act_assemble tree _ _

end Assemble

section Translate

def directoryName? (tree : FileTree) (directory : Path) : Option String :=
  directory.fileName?.or (tree.ownName? directory)

def directorySources (tree : FileTree) (directory : Path) : Except Failure Sources := do
  let found ← (tree.fileNames directory).mapError (.cannotRead directory)
  if (sourceNames found).isEmpty then .error (.noSources directory)
  else match tree.directoryName? directory with
    | some name => .ok ⟨(sourceNames found).map directory.join, directory.join (name ++ ".asm")⟩
    | none => .error (.unnamedOutput directory)

def sources (tree : FileTree) (input : Path) : Except Failure Sources :=
  if tree.isDirectory input then tree.directorySources input
  else if input.hasExtension "vm" then .ok ⟨[input], input.withExtension "asm"⟩
  else .error (.notTranslatable input)

def translateFile (tree : FileTree) (draft : Lowering.Draft) (path : Path) :
    Except Failure Lowering.Draft := do
  let text ← (tree.readText path).mapError (.cannotRead path)
  let (result, next) := draft.addUnit ⟨path.stem?.getD "", text⟩
  result.mapError .lowering
  return next

def config (tree : FileTree) (options : TranslateOptions) : Lowering.Config :=
  ⟨options.bootstrap?.getD (tree.isDirectory options.input), options.entry⟩

def draftJob (draft : Lowering.Draft) (output : Path) : Job :=
  let commands := draft.commandCount
  let instructions := draft.finish.instructionCount
  ⟨output, draft.finish.toText,
    ⟨[], s!"translated {commands} commands ({instructions} instructions) -> {output.text}"⟩⟩

/-- The listing of sources that the tree holds, as a file to write. -/
def translateJob (tree : FileTree) (options : TranslateOptions) : Except Failure Job := do
  let sources ← tree.sources options.input
  let start ← (Lowering.Draft.start (tree.config options)).mapError .lowering
  let draft ← sources.files.foldlM tree.translateFile start
  return draftJob draft (options.output?.getD sources.output)

theorem act_directoryName (tree : FileTree) (directory : Path) :
    tree.act (CommandLine.directoryName directory) =
      (match tree.directoryName? directory with
        | some name => .ok name
        | none => .error (.unnamedOutput directory), tree) := by
  rw [CommandLine.directoryName, directoryName?]
  cases directory.fileName? with
  | some name => rfl
  | none =>
      have hown : tree.act (liftM (Storage.ownName? directory : StateM FileTree (Option String))) =
          (.ok (tree.ownName? directory), tree) := rfl
      refine (act_bind_ok hown).trans ?_
      rw [Option.none_or]
      cases tree.ownName? directory <;> rfl

theorem act_directorySources (tree : FileTree) (directory : Path) :
    tree.act (CommandLine.directorySources directory) = (tree.directorySources directory, tree) := by
  have hfound : tree.act (attempt (.cannotRead directory) (Storage.fileNames directory)) =
      ((tree.fileNames directory).mapError (.cannotRead directory), tree) := rfl
  refine act_bind_reads hfound fun found => ?_
  cases hempty : (sourceNames found).isEmpty with
  | true =>
      simp only [hempty, if_true]
      rfl
  | false =>
      simp only [hempty, Bool.false_eq_true, if_false]
      have hname := act_directoryName tree directory
      cases hown : tree.directoryName? directory with
      | none => exact act_bind_error (by rw [hname, hown])
      | some name => exact act_bind_ok (by rw [hname, hown])

theorem act_findSources (tree : FileTree) (input : Path) :
    tree.act (findSources input (tree.isDirectory input)) = (tree.sources input, tree) := by
  rw [findSources, sources]
  split
  · exact act_directorySources tree input
  · split <;> rfl

theorem act_translateFile (tree : FileTree) (draft : Lowering.Draft) (path : Path) :
    tree.act (CommandLine.translateFile draft path) = (tree.translateFile draft path, tree) := by
  refine act_bind_reads (act_readFile tree path) fun text => ?_
  generalize draft.addUnit ⟨path.stem?.getD "", text⟩ = added
  obtain ⟨result, next⟩ := added
  exact act_bind_reads (act_ofResult tree _ result) fun _ => rfl

theorem act_translate (tree : FileTree) (options : TranslateOptions) :
    tree.act (translate options) = tree.carryOut (tree.translateJob options) := by
  have hdirectory : tree.act (liftM (Storage.isDirectory options.input : StateM FileTree Bool)) =
      (.ok (tree.isDirectory options.input), tree) := rfl
  refine (act_bind_ok hdirectory).trans ?_
  refine act_bind_carryOut (act_findSources tree options.input) fun sources => ?_
  refine act_bind_carryOut (act_ofResult tree _ _) fun start => ?_
  refine act_bind_carryOut (act_foldlM (act_translateFile tree) sources.files start) fun draft => ?_
  exact act_writeFile_bind tree _ _ _

theorem act_perform_translate (tree : FileTree) (input : String) (flags : List String) :
    tree.act (perform .translate (input :: flags)) =
      tree.carryOut (TranslateOptions.read { input := ⟨input⟩ } flags >>= tree.translateJob) :=
  act_bind_carryOut (act_ofResult_id tree _) (act_translate tree)

end Translate

end FileTree

end CommandLine

end HackToolchain
