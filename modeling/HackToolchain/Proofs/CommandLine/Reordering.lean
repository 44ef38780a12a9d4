import HackToolchain.Proofs.CommandLine.Action
import Mathlib.Data.String.Basic

/-!
# The order of entries

A system lists the files of a directory in an order of its own. Everything that is looked up at a
place or along a path is the same in any order, and the names of sources are sorted, so a command line
does the same to trees that have the same entries.
-/

namespace HackToolchain

namespace CommandLine

theorem pairwise_sourceNames (names : List String) : (sourceNames names).Pairwise (· ≤ ·) := by
  have hle (a b : String) : (!decide (b < a)) = true ↔ a ≤ b := by
    rw [Bool.not_eq_true', decide_eq_false_iff_not, not_lt]
  have hsorted : (sourceNames names).Pairwise fun a b => (!decide (b < a)) = true :=
    List.pairwise_mergeSort
      (fun a b c hab hbc => (hle a c).2 (le_trans ((hle a b).1 hab) ((hle b c).1 hbc)))
      (fun a b => by
        rw [Bool.or_eq_true, hle, hle]
        exact le_total a b) _
  exact hsorted.imp fun h => (hle _ _).1 h

theorem sourceNames_perm (names : List String) :
    (sourceNames names).Perm (names.filter fun name => (Path.mk name).hasExtension "vm") :=
  List.mergeSort_perm _ _

/-- Sorting forgets the order of names. -/
theorem sourceNames_eq_of_perm {names other : List String} (h : names.Perm other) :
    sourceNames names = sourceNames other :=
  ((sourceNames_perm names).trans ((h.filter _).trans (sourceNames_perm other).symm)).eq_of_pairwise
    (fun _ _ _ _ => le_antisymm) (pairwise_sourceNames names) (pairwise_sourceNames other)

/-- The same entries in any order. -/
structure FileTree.SameFiles (tree other : FileTree) : Prop where
  current : tree.current = other.current
  entries : tree.entries.Perm other.entries
  nodup : (tree.entries.map Prod.fst).Nodup

namespace FileTree.SameFiles

variable {tree other : FileTree} (h : tree.SameFiles other)
include h

theorem entry?_eq : tree.entry? = other.entry? := by
  funext place
  cases place with
  | nil => rfl
  | cons name rest => exact lookup_eq_of_perm h.entries h.nodup (name :: rest)

theorem isDirectoryAt_eq : tree.isDirectoryAt = other.isDirectoryAt := by
  funext place
  rw [isDirectoryAt, isDirectoryAt, h.entry?_eq]

theorem follow_eq : tree.follow = other.follow := by
  funext place component
  rw [follow, follow, h.isDirectoryAt_eq, h.entry?_eq]

theorem resolve_eq : tree.resolve = other.resolve := by
  funext path
  rw [resolve, resolve, origin, origin, h.follow_eq, h.current]

theorem isDirectory_eq : tree.isDirectory = other.isDirectory := by
  funext path
  rw [isDirectory, isDirectory, h.resolve_eq, h.isDirectoryAt_eq]

theorem readText_eq : tree.readText = other.readText := by
  funext path
  rw [readText, readText, h.resolve_eq, h.entry?_eq]

theorem target_eq : tree.target = other.target := by
  funext path
  rw [target, target, origin, origin, h.follow_eq, h.isDirectoryAt_eq, h.current]

theorem directoryName?_eq : tree.directoryName? = other.directoryName? := by
  funext directory
  rw [directoryName?, directoryName?, ownName?, ownName?, h.resolve_eq]

theorem directorySources_eq : tree.directorySources = other.directorySources := by
  funext directory
  rw [directorySources, directorySources, fileNames, fileNames, h.resolve_eq, h.isDirectoryAt_eq,
    h.directoryName?_eq]
  cases other.resolve directory with
  | error fault => rfl
  | ok place =>
      have hnames := sourceNames_eq_of_perm (h.entries.filterMap (fileNameIn? place))
      show (if other.isDirectoryAt place then _ else _ : Except StorageFault _).mapError _ >>= _ =
        (if other.isDirectoryAt place then _ else _ : Except StorageFault _).mapError _ >>= _
      cases other.isDirectoryAt place with
      | false => rfl
      | true =>
          show (if (sourceNames (tree.entries.filterMap (fileNameIn? place))).isEmpty then _ else _) = _
          rw [hnames]
          rfl

theorem sources_eq : tree.sources = other.sources := by
  funext input
  rw [sources, sources, h.isDirectory_eq, h.directorySources_eq]

theorem translateJob_eq : tree.translateJob = other.translateJob := by
  have hfile : tree.translateFile = other.translateFile := by
    funext draft path
    rw [translateFile, translateFile, h.readText_eq]
  funext options
  rw [translateJob, translateJob, config, config, h.sources_eq, h.isDirectory_eq, hfile]

theorem assembleJob_eq : tree.assembleJob = other.assembleJob := by
  funext input output
  rw [assembleJob, assembleJob, h.readText_eq]

theorem program_eq : tree.program = other.program := by
  funext path
  rw [program, program, h.readText_eq]

theorem put (place : Place) (entry : Entry) :
    (tree.put place entry).SameFiles (other.put place entry) := by
  have hlookup := lookup_eq_of_perm h.entries h.nodup place
  refine ⟨?_, ?_, ?_⟩
  · rw [current_put, current_put, h.current]
  · rw [FileTree.put, FileTree.put, hlookup]
    split
    · exact h.entries.map _
    · exact h.entries.append_right _
  · exact nodup_put h.nodup

theorem carryOut (job? : Except Failure Job) :
    (tree.carryOut job?).1 = (other.carryOut job?).1 ∧
      (tree.carryOut job?).2.SameFiles (other.carryOut job?).2 := by
  cases job? with
  | error failure => exact ⟨rfl, h⟩
  | ok job =>
      rw [FileTree.carryOut, FileTree.carryOut, writeText, writeText, h.target_eq]
      cases other.target job.output with
      | error fault => exact ⟨rfl, h⟩
      | ok place => exact ⟨rfl, h.put place _⟩

theorem act_perform (subcommand : Subcommand) (arguments : List String) :
    (tree.act (perform subcommand arguments)).1 = (other.act (perform subcommand arguments)).1 ∧
      (tree.act (perform subcommand arguments)).2.SameFiles
        (other.act (perform subcommand arguments)).2 := by
  cases arguments with
  | nil => exact ⟨rfl, h⟩
  | cons input flags =>
      cases subcommand with
      | translate =>
          rw [act_perform_translate, act_perform_translate, h.translateJob_eq]
          exact h.carryOut _
      | assemble =>
          rw [act_perform_assemble, act_perform_assemble, h.assembleJob_eq]
          exact h.carryOut _
      | run =>
          rw [act_perform_run, act_perform_run, h.program_eq]
          exact ⟨rfl, h⟩

theorem execute (arguments : List String) :
    (tree.execute arguments).1 = (other.execute arguments).1 ∧
      (tree.execute arguments).2.SameFiles (other.execute arguments).2 := by
  rcases execute_cases arguments with ⟨subcommand, rest, rfl⟩ | hhelp | ⟨failure, -, hfails⟩
  · obtain ⟨hresult, hafter⟩ := h.act_perform subcommand rest
    rw [execute_cons, execute_cons]
    exact ⟨congrArg Outcome.ofExcept hresult, hafter⟩
  · rw [hhelp, hhelp]
    exact ⟨rfl, h⟩
  · rw [hfails, hfails]
    exact ⟨rfl, h⟩

end FileTree.SameFiles

end CommandLine

end HackToolchain
