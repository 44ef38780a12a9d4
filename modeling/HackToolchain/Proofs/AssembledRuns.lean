import HackToolchain.Proofs.BinaryText
import HackToolchain.Proofs.CommandLine.Action

/-!
# Running a listing and its machine code

`assemble` writes the machine code of a listing as text to the path with the extension `hack`, and
`run` reads a listing or that text. Since the text holds the machine code, both ways lead to the same
program, so `run` prints the same and ends alike. A listing that does not assemble is reported by
`run` as by `assemble`.
-/

namespace HackToolchain

namespace CommandLine

namespace FileTree

variable {tree after : FileTree}

theorem execute_run_congr {input other : Path} (flags : List String)
    (h : tree.program input = after.program other) :
    (tree.execute ("run" :: input.text :: flags)).1 =
      (after.execute ("run" :: other.text :: flags)).1 := by
  rw [execute_run, execute_run]
  show Outcome.ofExcept (RunOptions.read { input := input } flags >>= fun options =>
    tree.program input >>= runReport options) = Outcome.ofExcept
      (RunOptions.read { input := other } flags >>= fun options =>
        after.program other >>= runReport options)
  rw [RunOptions.read_input { input := input } other flags, h]
  cases RunOptions.read { input := input } flags <;> rfl

variable {input output : Path} {text : String}

/-- Machine code beside a listing has another name than the listing, and is not taken for one. -/
theorem target_withExtension {place : Place} (hinput : input.hasExtension "asm" = true)
    (hread : tree.readText input = .ok text)
    (htarget : tree.target (input.withExtension "hack") = .ok place) :
    (input.withExtension "hack").hasExtension "asm" = false ∧ tree.resolve input ≠ .ok place := by
  obtain ⟨parents, name, rfl, hparts⟩ := input.exists_ofParts
  obtain ⟨hidle, parent, hresolve⟩ :=
    resolve_of_readText hparts (Path.ne_up_of_hasExtension hparts hinput) hread
  obtain ⟨stem, hstem, rfl⟩ := Path.exists_stem_of_hasExtension hparts hidle hinput
  by_cases hdot : stem = ['.']
  · -- without the extension the listing `..asm` has no name to put another extension behind
    subst hdot
    have hup := Path.withExtension_ofParts_dot hparts (by decide) (by decide) "hack"
    obtain ⟨-, -, -, -, hname, -⟩ := of_target ⟨hparts.parents, by decide⟩ (hup ▸ htarget)
    exact absurd rfl hname.not_up
  · have hnew : Path.AreParts parents (stem ++ '.' :: "hack".toList) :=
      hparts.withExtension (by decide)
    rw [Path.withExtension_ofParts hparts hstem hdot (by decide)] at htarget ⊢
    obtain ⟨other, -, -, rfl, hname, -⟩ := of_target hnew htarget
    constructor
    · have hcounts := hname.counts
      rw [String.toList_ofList] at hcounts
      have hfound := Path.extension?_ofParts hnew hcounts
        (fun heq => hname.not_up (String.ofList_inj.2 heq))
        (Path.splitExtension_append hstem (by decide))
      rw [Path.hasExtension, hfound]
      rfl
    · rw [hresolve]
      intro heq
      have hnames := (List.append_inj_right' (Except.ok.inj heq) rfl)
      simp at hnames

theorem program_of_listing (hinput : input.hasExtension "asm" = true)
    (hread : tree.readText input = .ok text) :
    tree.program input = (Assembly.assemble text).mapError .assembly := by
  rw [program, hread]
  exact if_pos hinput

theorem program_of_machineCode {code : MachineCode} (hinput : input.hasExtension "asm" = false)
    (hread : tree.readText input = .ok code.toText) : tree.program input = .ok code := by
  rw [program, hread]
  show (if input.hasExtension "asm" then _ else _) = Except.ok code
  rw [hinput, if_neg Bool.false_ne_true, MachineCode.ofText_toText]
  rfl

theorem program_of_assembled {report : Report} (hinput : input.hasExtension "asm" = true)
    (h : tree.carryOut (tree.assembleJob input (input.withExtension "hack")) = (.ok report, after)) :
    after.program (input.withExtension "hack") = tree.program input ∧
      after.program input = tree.program input := by
  obtain ⟨job, hjob, -, hwrite⟩ := carryOut_eq_ok_iff.1 h
  obtain ⟨text, code, hread, hcode, rfl⟩ := assembleJob_eq_ok_iff.1 hjob
  dsimp only at hwrite
  have hbeside := readText_writeText hwrite
  obtain ⟨place, htarget, rfl⟩ := writeText_eq_ok_iff.1 hwrite
  obtain ⟨hextension, hne⟩ := target_withExtension hinput hread htarget
  have hkept := readText_put_of_ne code.toText.toUTF8 (isDirectoryAt_of_target htarget) hne hread
  rw [program_of_machineCode hextension hbeside, program_of_listing hinput hkept,
    program_of_listing hinput hread, hcode]
  exact ⟨rfl, rfl⟩

theorem printed_report_ne (path : Path) (reason : StorageFault)
    (fault : Text.Numbered Assembly.Fault) :
    printed (Failure.cannotRead path reason).report ≠ printed (Failure.assembly fault).report ∧
      printed (Failure.cannotWrite path reason).report ≠ printed (Failure.assembly fault).report := by
  simp [printed, Failure.report, Assembly.Fault.message, ToString.toString, ← String.toList_inj]

theorem program_of_reported {fault : Text.Numbered Assembly.Fault}
    (hinput : input.hasExtension "asm" = true)
    (h : Outcome.ofExcept (tree.carryOut (tree.assembleJob input output)).1 =
      .ofExcept (.error (.assembly fault))) :
    ∃ found, tree.program input = .error (.assembly found) ∧
      Outcome.ofExcept (.error (.assembly found)) = .ofExcept (.error (.assembly fault)) := by
  rcases hdone : tree.carryOut (tree.assembleJob input output) with ⟨failure | report, after⟩
  · rw [hdone] at h
    have hprinted := congrArg Outcome.stderr h
    obtain ⟨-, hjob | ⟨job, reason, -, rfl⟩⟩ := of_carryOut_eq_error hdone
    · rcases of_assembleJob_eq_error hjob with ⟨reason, rfl⟩ | ⟨text, found, hread, hfound, rfl⟩
      · exact absurd hprinted (printed_report_ne input reason fault).1
      · exact ⟨found, by rw [program_of_listing hinput hread, hfound]; rfl, h⟩
    · exact absurd hprinted (printed_report_ne job.output reason fault).2
  · rw [hdone] at h
    exact absurd (congrArg Outcome.exitCode h) Nat.zero_ne_one

end FileTree

open FileTree

/-- After `assemble`, the machine code runs like the listing, and the listing as before. A listing
with an error of the assembler is reported by `run` as by `assemble`, if the flags can be read. -/
theorem assembled_program_runs_alike {tree after : FileTree} {input : String} {outcome : Outcome}
    (hinput : (Path.mk input).hasExtension "asm" = true)
    (h : tree.execute ["assemble", input] = (outcome, after)) (flags : List String) :
    (outcome.exitCode = 0 →
      (after.execute ("run" :: ((Path.mk input).withExtension "hack").text :: flags)).1 =
          (tree.execute ("run" :: input :: flags)).1 ∧
        (after.execute ("run" :: input :: flags)).1 = (tree.execute ("run" :: input :: flags)).1) ∧
    ∀ fault options, RunOptions.read { input := ⟨input⟩ } flags = .ok options →
      outcome = ⟨1, "", printed [s!"error: {Assembly.Fault.message fault}"]⟩ →
      (tree.execute ("run" :: input :: flags)).1 = outcome := by
  have hassemble : tree.execute ["assemble", input] =
      (tree.carryOut (tree.assembleJob ⟨input⟩ ((Path.mk input).withExtension "hack"))).map
        .ofExcept id :=
    (tree.execute_cons .assemble [input]).trans (by rw [act_perform_assemble]; rfl)
  rcases hdone : tree.carryOut (tree.assembleJob ⟨input⟩ ((Path.mk input).withExtension "hack"))
    with ⟨result, left⟩
  rw [h, hdone] at hassemble
  obtain ⟨rfl, rfl⟩ := Prod.mk.inj hassemble
  constructor
  · intro hexit
    cases result with
    | error failure => cases failure <;> cases hexit
    | ok report =>
        obtain ⟨hbeside, hkept⟩ := program_of_assembled hinput hdone
        exact ⟨execute_run_congr flags hbeside, execute_run_congr flags hkept⟩
  · intro fault options hread herror
    have hreported : Outcome.ofExcept (tree.carryOut (tree.assembleJob ⟨input⟩
        ((Path.mk input).withExtension "hack"))).1 = .ofExcept (.error (.assembly fault)) := by
      rw [hdone]
      exact herror
    obtain ⟨found, hprogram, hsame⟩ := program_of_reported hinput hreported
    rw [execute_run, hread, hprogram]
    exact hsame.trans herror.symm

def twoListings : FileTree :=
  ⟨[], [(["sum.asm"], .file "@7\nD=A\n@0\nM=D\n(END)\n@END\n0;JMP\n".toUTF8),
    (["bad.asm"], .file "@7\nD=Q\n".toUTF8)]⟩

theorem assembled_program_runs_alike_two_listings :
    (twoListings.execute ["assemble", "sum.asm"]).1 = ⟨0, "", "assembled 6 words -> sum.hack\n"⟩ ∧
      ((twoListings.execute ["assemble", "sum.asm"]).2.execute
          ["run", "sum.hack", "--ram", "0..1"]).1 =
        (twoListings.execute ["run", "sum.asm", "--ram", "0..1"]).1 ∧
      (twoListings.execute ["run", "bad.asm"]).1 = (twoListings.execute ["assemble", "bad.asm"]).1 ∧
      (twoListings.execute ["assemble", "bad.asm"]).1 =
        ⟨1, "", "error: line 2: no comp encoding for 'Q'\n"⟩ := by
  have hsum : (twoListings.execute ["assemble", "sum.asm"]).1 =
      ⟨0, "", "assembled 6 words -> sum.hack\n"⟩ := by decide +kernel
  have hbad : (twoListings.execute ["assemble", "bad.asm"]).1 =
      ⟨1, "", "error: line 2: no comp encoding for 'Q'\n"⟩ := by decide +kernel
  have hbeside : ((Path.mk "sum.asm").withExtension "hack").text = "sum.hack" := by decide +kernel
  have hlisting : (Path.mk "sum.asm").hasExtension "asm" = true := by decide +kernel
  have hother : (Path.mk "bad.asm").hasExtension "asm" = true := by decide +kernel
  have hparts (arguments : List String) : twoListings.execute arguments =
      ((twoListings.execute arguments).1, (twoListings.execute arguments).2) := rfl
  have hrun := (assembled_program_runs_alike hlisting (hparts _) ["--ram", "0..1"]).1
    (congrArg Outcome.exitCode hsum)
  rw [hbeside] at hrun
  have hsame := (assembled_program_runs_alike hother (hparts _) []).2
    ⟨2, .unknownMnemonic .comp "Q"⟩ { input := ⟨"bad.asm"⟩ } rfl (hbad.trans (by decide +kernel))
  exact ⟨hsum, hrun.1, hsame, hbad⟩

end CommandLine

end HackToolchain
