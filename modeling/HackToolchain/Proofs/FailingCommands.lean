import HackToolchain.Proofs.CommandLine.Action

/-!
# Failing command lines

Everything that can fail before a program was loaded ends the tool with code 1, and the one file of a
command line is written when nothing can fail any more. So a command line that fails has written
nothing and printed no result, and only a fault of the machine ends the tool with code 3.
-/

namespace HackToolchain

namespace CommandLine

section Ordinary

variable {α β ε : Type}

/-- A failure, if any, that ends the tool with code 1. -/
def IsOrdinary (result : Except Failure α) : Prop :=
  ∀ failure, result = .error failure → failure.exitCode = 1

theorem isOrdinary_ok (a : α) : IsOrdinary (.ok a) := fun _ h => nomatch h

theorem isOrdinary_error {failure : Failure} (h : failure.exitCode = 1) :
    IsOrdinary (.error failure : Except Failure α) := fun _ heq => Except.error.inj heq ▸ h

theorem isOrdinary_mapError {failure : ε → Failure} (h : ∀ e, (failure e).exitCode = 1)
    (result : Except ε α) : IsOrdinary (result.mapError failure) := fun _ heq => by
  obtain ⟨e, -, rfl⟩ := mapError_eq_error_iff.1 heq
  exact h e

theorem IsOrdinary.bind {result : Except Failure α} {next : α → Except Failure β}
    (h : IsOrdinary result) (hnext : ∀ a, IsOrdinary (next a)) : IsOrdinary (result >>= next) :=
  fun failure heq => by
    rcases of_bind_eq_error heq with hfirst | ⟨a, -, hlast⟩
    · exact h failure hfirst
    · exact hnext a failure hlast

theorem IsOrdinary.foldlM {f : β → α → Except Failure β} (h : ∀ b a, IsOrdinary (f b a))
    (xs : List α) (b : β) : IsOrdinary (xs.foldlM f b) := by
  induction xs generalizing b with
  | nil => exact isOrdinary_ok b
  | cons x xs ih =>
      rw [List.foldlM_cons]
      exact (h b x).bind ih

theorem TranslateOptions.isOrdinary_read (options : TranslateOptions) (flags : List String) :
    IsOrdinary (options.read flags) := by
  fun_induction TranslateOptions.read options flags with
  | case1 options => exact isOrdinary_ok options
  | case2 options rest ih => exact ih
  | case3 options rest h ih => exact ih
  | case4 options value rest h h' ih => exact ih
  | case5 => exact isOrdinary_error rfl
  | case6 options value rest h h' h'' ih => exact ih
  | case7 => exact isOrdinary_error rfl
  | case8 => exact isOrdinary_error rfl

theorem isOrdinary_readCycleCount (value : String) : IsOrdinary (readCycleCount value) := by
  rw [readCycleCount]
  split
  · exact isOrdinary_ok _
  · exact isOrdinary_error rfl

theorem isOrdinary_readRange (value : String) : IsOrdinary (readRange value) := by
  rw [readRange]
  split
  · exact isOrdinary_ok _
  · exact isOrdinary_error rfl

theorem RunOptions.isOrdinary_read (options : RunOptions) (flags : List String) :
    IsOrdinary (options.read flags) := by
  fun_induction RunOptions.read options flags with
  | case1 options => exact isOrdinary_ok options
  | case2 options value rest count hcount ih => exact ih
  | case3 options value rest failure hcount =>
      exact isOrdinary_error (isOrdinary_readCycleCount value failure hcount)
  | case4 => exact isOrdinary_error rfl
  | case5 options value rest first last hrange hflag ih => exact ih
  | case6 options value rest failure hrange =>
      exact isOrdinary_error (isOrdinary_readRange value failure hrange)
  | case7 => exact isOrdinary_error rfl
  | case8 => exact isOrdinary_error rfl

namespace FileTree

theorem isOrdinary_assembleJob (tree : FileTree) (input output : Path) :
    IsOrdinary (tree.assembleJob input output) := by
  intro failure h
  rcases of_assembleJob_eq_error h with ⟨reason, rfl⟩ | ⟨-, fault, -, -, rfl⟩ <;> rfl

theorem isOrdinary_sources (tree : FileTree) (input : Path) : IsOrdinary (tree.sources input) := by
  rw [sources]
  split
  · refine (isOrdinary_mapError (fun _ => rfl) _).bind fun found => ?_
    split
    · exact isOrdinary_error rfl
    · split
      · exact isOrdinary_ok _
      · exact isOrdinary_error rfl
  · split
    · exact isOrdinary_ok _
    · exact isOrdinary_error rfl

theorem isOrdinary_translateFile (tree : FileTree) (draft : Lowering.Draft) (path : Path) :
    IsOrdinary (tree.translateFile draft path) :=
  (isOrdinary_mapError (fun _ => rfl) _).bind fun _ =>
    (isOrdinary_mapError (fun _ => rfl) _).bind fun _ => isOrdinary_ok _

theorem isOrdinary_translateJob (tree : FileTree) (options : TranslateOptions) :
    IsOrdinary (tree.translateJob options) :=
  (tree.isOrdinary_sources options.input).bind fun sources =>
    (isOrdinary_mapError (fun _ => rfl) _).bind fun start =>
      (IsOrdinary.foldlM tree.isOrdinary_translateFile sources.files start).bind fun _ =>
        isOrdinary_ok _

theorem isOrdinary_program (tree : FileTree) (path : Path) : IsOrdinary (tree.program path) := by
  refine (isOrdinary_mapError (fun _ => rfl) _).bind fun text => ?_
  split
  · exact isOrdinary_mapError (fun _ => rfl) _
  · exact isOrdinary_mapError (fun _ => rfl) _

end FileTree

end Ordinary

section Effect

variable {tree : FileTree} {arguments : List String}

/-- The path that a command line writes to if nothing fails. -/
inductive IsOutput (tree : FileTree) : List String → Path → Prop
  | translate {input : String} {flags : List String} {options : TranslateOptions} {sources : Sources}
      (hread : TranslateOptions.read { input := ⟨input⟩ } flags = .ok options)
      (hsources : tree.sources ⟨input⟩ = .ok sources) :
      IsOutput tree ("translate" :: input :: flags) (options.output?.getD sources.output)
  | assemble (input : String) (flags : List String) :
      IsOutput tree ("assemble" :: input :: flags) (assembleOutput ⟨input⟩ flags)

/-- What a command line can do: fail before anything was written, print how the tool is used, write
its output, or run a program. -/
inductive Effect (tree : FileTree) (arguments : List String) : Outcome × FileTree → Prop
  | failed {failure : Failure} (h : failure.exitCode = 1) :
      Effect tree arguments (.ofExcept (.error failure), tree)
  | helped : Effect tree arguments (⟨0, "", printed usageLines⟩, tree)
  | wrote {output : Path} {place : Place} {text : String} {report : Report}
      (houtput : IsOutput tree arguments output) (htarget : tree.target output = .ok place) :
      Effect tree arguments (.ofExcept (.ok report), tree.put place (.file text.toUTF8))
  | ran {input : String} {flags : List String} {options : RunOptions} {code : MachineCode}
      (harguments : arguments = "run" :: input :: flags)
      (hread : RunOptions.read { input := ⟨input⟩ } flags = .ok options)
      (hprogram : tree.program ⟨input⟩ = .ok code) :
      Effect tree arguments (.ofExcept (FileTree.runReport options code), tree)

theorem effect_carryOut {job? : Except Failure Job} (h : IsOrdinary job?)
    (houtput : ∀ job, job? = .ok job → IsOutput tree arguments job.output) :
    Effect tree arguments ((tree.carryOut job?).map .ofExcept id) := by
  rcases hdone : tree.carryOut job? with ⟨failure | report, after⟩
  · obtain ⟨rfl, hjob | ⟨job, reason, -, rfl⟩⟩ := FileTree.of_carryOut_eq_error hdone
    · exact .failed (h failure hjob)
    · exact .failed rfl
  · obtain ⟨job, hjob, -, hwrite⟩ := FileTree.carryOut_eq_ok_iff.1 hdone
    obtain ⟨place, htarget, rfl⟩ := FileTree.writeText_eq_ok_iff.1 hwrite
    exact .wrote (houtput job hjob) htarget

/-- The output of a translation is the one asked for, or else that of its sources. -/
theorem exists_of_translateJob {options : TranslateOptions} {job : Job}
    (h : tree.translateJob options = .ok job) : ∃ sources,
      tree.sources options.input = .ok sources ∧
        job.output = options.output?.getD sources.output := by
  obtain ⟨sources, hsources, hstart⟩ := exists_of_bind_eq_ok h
  obtain ⟨start, -, hdraft⟩ := exists_of_bind_eq_ok hstart
  obtain ⟨draft, -, hjob⟩ := exists_of_bind_eq_ok hdraft
  exact ⟨sources, hsources, congrArg Job.output (Except.ok.inj hjob).symm⟩

theorem effect_run (tree : FileTree) (input : String) (flags : List String) :
    Effect tree ("run" :: input :: flags)
      ((tree.act (perform .run (input :: flags))).map .ofExcept id) := by
  rw [FileTree.act_perform_run]
  cases hread : RunOptions.read { input := ⟨input⟩ } flags with
  | error failure => exact .failed (RunOptions.isOrdinary_read _ _ failure hread)
  | ok options =>
      cases hprogram : tree.program ⟨input⟩ with
      | error failure => exact .failed (tree.isOrdinary_program _ failure hprogram)
      | ok code => exact .ran rfl hread hprogram

theorem effect_perform (tree : FileTree) (subcommand : Subcommand) (arguments : List String) :
    Effect tree (subcommand.name :: arguments)
      ((tree.act (perform subcommand arguments)).map .ofExcept id) := by
  cases arguments with
  | nil => exact .failed rfl
  | cons input flags =>
      cases subcommand with
      | run => exact effect_run tree input flags
      | assemble =>
          rw [FileTree.act_perform_assemble]
          refine effect_carryOut (tree.isOrdinary_assembleJob _ _) fun job hjob => ?_
          obtain ⟨-, -, -, -, rfl⟩ := FileTree.assembleJob_eq_ok_iff.1 hjob
          exact .assemble input flags
      | translate =>
          rw [FileTree.act_perform_translate]
          refine effect_carryOut ((TranslateOptions.isOrdinary_read _ _).bind
            tree.isOrdinary_translateJob) fun job hjob => ?_
          obtain ⟨options, hread, hjob⟩ := exists_of_bind_eq_ok hjob
          obtain ⟨sources, hsources, houtput⟩ := exists_of_translateJob hjob
          rw [TranslateOptions.input_of_read hread] at hsources
          rw [houtput]
          exact .translate hread hsources

theorem effect_execute (tree : FileTree) (arguments : List String) :
    Effect tree arguments (tree.execute arguments) := by
  rcases FileTree.execute_cases arguments with
    ⟨subcommand, rest, rfl⟩ | hhelp | ⟨failure, hfailure, hfails⟩
  · rw [FileTree.execute_cons]
    exact effect_perform tree subcommand rest
  · rw [hhelp]
    exact .helped
  · rw [hfails]
    exact .failed hfailure

/-- The output of a command line is changed, or nothing is. -/
theorem Effect.changes {done : Outcome × FileTree} (h : Effect tree arguments done) :
    done.2 = tree ∨ ∃ output place bytes, IsOutput tree arguments output ∧
      tree.target output = .ok place ∧ done.2 = tree.put place (.file bytes) ∧
      ∀ other, other ≠ place → FileTree.entry? done.2 other = tree.entry? other := by
  cases h with
  | failed h => exact .inl rfl
  | helped => exact .inl rfl
  | @wrote output place text report houtput htarget =>
      refine .inr ⟨output, place, text.toUTF8, houtput, htarget, rfl, fun other hother => ?_⟩
      have hfree := FileTree.isDirectoryAt_of_target htarget
      rw [FileTree.entry?_put (FileTree.ne_nil_of_not_isDirectoryAt hfree), if_neg hother]
  | ran harguments hread hprogram => exact .inl rfl

theorem runReport_cases (options : RunOptions) (code : MachineCode) :
    (∃ report, FileTree.runReport options code = .ok report) ∨
      ∃ fault, FileTree.runReport options code = .error (.machine fault) ∧
        ((Machine.Cpu.load code).run options.maxCycles).1 = .error fault := by
  rw [FileTree.runReport]
  cases ((Machine.Cpu.load code).run options.maxCycles).1 with
  | ok cycles => exact .inl ⟨_, rfl⟩
  | error fault => exact .inr ⟨fault, rfl, rfl⟩

theorem Effect.fails {done : Outcome × FileTree} (h : Effect tree arguments done) :
    done.1.exitCode = 0 ∨
      (done.1.exitCode = 1 ∨ done.1.exitCode = 3) ∧ done.2 = tree ∧ done.1.stdout = "" := by
  cases h with
  | failed h => exact .inr ⟨.inl h, rfl, rfl⟩
  | helped => exact .inl rfl
  | wrote houtput htarget => exact .inl rfl
  | @ran input flags options code harguments hread hprogram =>
      obtain ⟨report, hreport⟩ | ⟨fault, hreport, -⟩ := runReport_cases options code
      · exact .inl (by rw [hreport]; rfl)
      · exact .inr (by rw [hreport]; exact ⟨.inr rfl, rfl, rfl⟩)

theorem Effect.stopped {done : Outcome × FileTree} (h : Effect tree arguments done)
    (hexit : done.1.exitCode = 3) : ∃ input flags options code fault,
      arguments = "run" :: input :: flags ∧
      RunOptions.read { input := ⟨input⟩ } flags = .ok options ∧
      tree.program ⟨input⟩ = .ok code ∧
      ((Machine.Cpu.load code).run options.maxCycles).1 = .error fault := by
  cases h with
  | failed h => exact absurd (hexit.symm.trans h) (by decide)
  | helped => cases hexit
  | wrote houtput htarget => cases hexit
  | @ran input flags options code harguments hread hprogram =>
      obtain ⟨report, hreport⟩ | ⟨fault, -, hfault⟩ := runReport_cases options code
      · rw [hreport] at hexit
        cases hexit
      · exact ⟨input, flags, options, code, fault, harguments, hread, hprogram, hfault⟩

end Effect

/-- The tool ends with 0, 1 or 3. If it does not end with 0, every file is as before and nothing is
printed as a result. `translate` and `assemble` change nothing but the file that their output leads
to, and nothing else changes anything. The tool ends with 3 exactly if `run` could read its flags,
loaded a program, and the machine stopped with a fault. Arguments and file names are taken to be valid
Unicode. -/
theorem failing_commands_write_nothing (tree : FileTree) (arguments : List String) :
    ∃ outcome after, tree.execute arguments = (outcome, after) ∧
      (outcome.exitCode = 0 ∨ outcome.exitCode = 1 ∨ outcome.exitCode = 3) ∧
      (outcome.exitCode ≠ 0 → after = tree ∧ outcome.stdout = "") ∧
      (after = tree ∨ ∃ output place bytes, IsOutput tree arguments output ∧
        tree.target output = .ok place ∧ after = tree.put place (.file bytes) ∧
        ∀ other, other ≠ place → after.entry? other = tree.entry? other) ∧
      (arguments.head? ≠ some "translate" → arguments.head? ≠ some "assemble" → after = tree) ∧
      (outcome.exitCode = 3 ↔ ∃ input flags options code fault,
        arguments = "run" :: input :: flags ∧
        RunOptions.read { input := ⟨input⟩ } flags = .ok options ∧
        tree.program ⟨input⟩ = .ok code ∧
        ((Machine.Cpu.load code).run options.maxCycles).1 = .error fault) := by
  have heffect := effect_execute tree arguments
  refine ⟨(tree.execute arguments).1, (tree.execute arguments).2, rfl, ?_, fun hexit => ?_,
    heffect.changes, fun htranslate hassemble => ?_, heffect.stopped, ?_⟩
  · rcases heffect.fails with hexit | ⟨hexit, -⟩
    · exact .inl hexit
    · exact .inr hexit
  · exact (heffect.fails.resolve_left hexit).2
  · obtain hsame | ⟨output, -, -, houtput, -⟩ := heffect.changes
    · exact hsame
    · cases houtput with
      | translate hread hsources => exact absurd rfl htranslate
      | assemble input flags => exact absurd rfl hassemble
  · rintro ⟨input, flags, options, code, fault, rfl, hread, hprogram, hfault⟩
    rw [FileTree.execute_run, hread, hprogram]
    show (Outcome.ofExcept (FileTree.runReport options code)).exitCode = 3
    rw [FileTree.runReport, hfault]
    rfl

end CommandLine

end HackToolchain
