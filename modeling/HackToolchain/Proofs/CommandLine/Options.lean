import HackToolchain.CommandLine.Options

/-!
# Reading flags

The input of a subcommand is kept while its flags are read, and has no part in how they are read. The
flags of `translate` are valid when they are a list of `TranslateFlag`s written out, and of those that
set the same thing the last one counts.
-/

namespace HackToolchain

namespace CommandLine

namespace RunOptions

theorem read_input (options : RunOptions) (input : Path) (flags : List String) :
    RunOptions.read { options with input := input } flags =
      (options.read flags).map ({ · with input := input }) := by
  fun_induction RunOptions.read options flags with
  | case1 options => rfl
  | case2 options value rest count hcount ih =>
      rw [RunOptions.read, if_pos rfl]
      simp only [hcount]
      exact ih
  | case3 options value rest failure hcount => simp [RunOptions.read, hcount, Except.map]
  | case4 options => simp [RunOptions.read, Except.map]
  | case5 options value rest first last hrange hflag ih =>
      rw [RunOptions.read, if_neg hflag, if_pos rfl]
      simp only [hrange]
      exact ih
  | case6 options value rest failure hrange => simp [RunOptions.read, hrange, Except.map]
  | case7 options => simp [RunOptions.read, Except.map]
  | case8 options flag rest hcycles hram =>
      rw [RunOptions.read.eq_def]
      simp [hcycles, hram, Except.map]

theorem input_of_read {options result : RunOptions} {flags : List String}
    (h : options.read flags = .ok result) : result.input = options.input := by
  have hsame := RunOptions.read_input options options.input flags
  rw [h] at hsame
  have hresult : result = { result with input := options.input } := Except.ok.inj hsame
  rw [hresult]

end RunOptions

inductive TranslateFlag
  | output (path : String)
  | entry (name : String)
  | bootstrap (on : Bool)

namespace TranslateFlag

def arguments : TranslateFlag → List String
  | output path => ["-o", path]
  | entry name => ["--entry", name]
  | bootstrap true => ["--bootstrap"]
  | bootstrap false => ["--no-bootstrap"]

def output? : TranslateFlag → Option Path
  | output path => some ⟨path⟩
  | _ => none

def entry? : TranslateFlag → Option String
  | entry name => some name
  | _ => none

def bootstrap? : TranslateFlag → Option Bool
  | bootstrap on => some on
  | _ => none

end TranslateFlag

namespace TranslateOptions

/-- What a flag asks for. -/
def set (options : TranslateOptions) : TranslateFlag → TranslateOptions
  | .output path => { options with output? := some ⟨path⟩ }
  | .entry name => { options with entry := name }
  | .bootstrap on => { options with bootstrap? := some on }

/-- What flags ask for: the last of each kind counts. -/
def after (options : TranslateOptions) (chosen : List TranslateFlag) : TranslateOptions where
  input := options.input
  output? := (chosen.filterMap TranslateFlag.output?).getLast?.or options.output?
  bootstrap? := (chosen.filterMap TranslateFlag.bootstrap?).getLast?.or options.bootstrap?
  entry := (chosen.filterMap TranslateFlag.entry?).getLast?.getD options.entry

theorem after_cons (options : TranslateOptions) (flag : TranslateFlag) (chosen : List TranslateFlag) :
    options.after (flag :: chosen) = (options.set flag).after chosen := by
  cases flag <;> simp [after, set, TranslateFlag.output?, TranslateFlag.entry?,
    TranslateFlag.bootstrap?, List.getLast?_cons]

theorem read_arguments (options : TranslateOptions) (flag : TranslateFlag) (rest : List String) :
    options.read (flag.arguments ++ rest) = (options.set flag).read rest := by
  rw [TranslateOptions.read.eq_def]
  cases flag with
  | output path => simp [TranslateFlag.arguments, set]
  | entry name => simp [TranslateFlag.arguments, set]
  | bootstrap on => cases on <;> simp [TranslateFlag.arguments, set]

theorem read_eq_ok_iff {options result : TranslateOptions} {flags : List String} :
    options.read flags = .ok result ↔
      ∃ chosen, flags = chosen.flatMap TranslateFlag.arguments ∧ result = options.after chosen := by
  constructor
  · have hmore {options : TranslateOptions} {rest : List String} (flag : TranslateFlag)
        (h : ∃ chosen, rest = chosen.flatMap TranslateFlag.arguments ∧
          result = (options.set flag).after chosen) :
        ∃ chosen, flag.arguments ++ rest = chosen.flatMap TranslateFlag.arguments ∧
          result = options.after chosen := by
      obtain ⟨chosen, rfl, rfl⟩ := h
      exact ⟨flag :: chosen, List.flatMap_cons.symm, (options.after_cons flag chosen).symm⟩
    intro h
    fun_induction TranslateOptions.read options flags with
    | case1 options => exact ⟨[], rfl, (Except.ok.inj h).symm⟩
    | case2 options rest ih => exact hmore (.bootstrap true) (ih h)
    | case3 options rest hflag ih => exact hmore (.bootstrap false) (ih h)
    | case4 options value rest hflag hflag' ih => exact hmore (.output value) (ih h)
    | case5 => cases h
    | case6 options value rest hflag hflag' hflag'' ih => exact hmore (.entry value) (ih h)
    | case7 => cases h
    | case8 => cases h
  · rintro ⟨chosen, rfl, rfl⟩
    induction chosen generalizing options with
    | nil => rfl
    | cons flag chosen ih => rw [List.flatMap_cons, read_arguments, ih, after_cons]

theorem input_of_read {options result : TranslateOptions} {flags : List String}
    (h : options.read flags = .ok result) : result.input = options.input := by
  obtain ⟨chosen, -, rfl⟩ := read_eq_ok_iff.1 h
  rfl

end TranslateOptions

end CommandLine

end HackToolchain
