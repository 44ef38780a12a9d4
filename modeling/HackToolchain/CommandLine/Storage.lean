import HackToolchain.CommandLine.Path

/-!
# Storage

What the command line asks of the place where files are kept: look at, read, list and write. The tool
is written for any `Storage`, so it runs on the files of a system and on a `FileTree` alike.
-/

namespace HackToolchain

namespace CommandLine

inductive StorageFault
  | notFound
  | notDirectory
  | isDirectory
  | notUtf8
  /-- Any other reason, in the words of the system. -/
  | other (reason : String)
  deriving Repr, DecidableEq

def StorageFault.message : StorageFault → String
  | notFound => "No such file or directory (os error 2)"
  | notDirectory => "Not a directory (os error 20)"
  | isDirectory => "Is a directory (os error 21)"
  | notUtf8 => "stream did not contain valid UTF-8"
  | other reason => reason

/-- A monad in which files can be read and written. -/
class Storage (m : Type → Type) where
  /-- Whether a path leads to a directory. -/
  isDirectory : Path → m Bool
  /-- The text of a file. -/
  readText : Path → m (Except StorageFault String)
  /-- The names of the files directly inside a directory, in any order. -/
  fileNames : Path → m (Except StorageFault (List String))
  /-- Creates a file or replaces what it holds. -/
  writeText : Path → String → m (Except StorageFault Unit)
  /-- The own name of a directory, however the path leads to it. -/
  ownName? : Path → m (Option String)

end CommandLine

end HackToolchain
