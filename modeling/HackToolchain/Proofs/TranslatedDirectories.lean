import HackToolchain.Proofs.CommandLine.Directory
import HackToolchain.Proofs.FailingCommands
import HackToolchain.Proofs.Lowering.Program
import HackToolchain.Proofs.Text.ByteOrder

/-!
# Translating a directory

The units of a directory are its sources in the order of the bytes of their names. The tool reads them
one after another and appends each to the draft, which is what lowering does with the list of them, so
the output of `translate` is the listing of these units, and its error is theirs. The name of the
directory is found out before any of this, even if the output does not need it, so nothing comes of
the root, which has none.
-/

namespace HackToolchain

open Lowering (SourceUnit Draft)

namespace CommandLine

namespace FileTree

variable {tree : FileTree} {place : Place} {directory : Path} {files : List String}
  {units : List SourceUnit}

theorem IsProper.execute (h : tree.IsProper) (arguments : List String) :
    (tree.execute arguments).2.IsProper := by
  rcases (effect_execute tree arguments).changes with
    hsame | ⟨output, place, bytes, -, htarget, hput, -⟩
  · rwa [hsame]
  · rw [hput]
    exact h.put htarget bytes

section

variable (hproper : tree.IsProper) (hplace : tree.resolve directory = .ok place)
  (hdirectory : tree.isDirectoryAt place = true)
include hproper hplace hdirectory

end

section

variable {options : TranslateOptions} {sources : Sources}
  (hsources : tree.sources options.input = .ok sources)
  (hunits : ∀ draft, sources.files.foldlM tree.translateFile draft =
    (draft.addUnits units).mapError .lowering)
include hsources hunits

end

end FileTree

end CommandLine

end HackToolchain
