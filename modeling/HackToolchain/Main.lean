import HackToolchain.CommandLine.Tool

/-!
# The program

The tool on the files of the system. This module only carries requests to the system and prints the
outcome.
-/

namespace HackToolchain

namespace CommandLine

def StorageFault.ofSystem : IO.Error → StorageFault
  | .noFileOrDirectory .. => .notFound
  | .inappropriateType _ 20 _ => .notDirectory
  | .inappropriateType _ 21 _ => .isDirectory
  | error => .other (toString error)

def request {α : Type} (action : IO α) : IO (Except StorageFault α) := do
  try
    return .ok (← action)
  catch error =>
    return .error (.ofSystem error)

def Path.systemEntry (path : Path) : IO.FS.DirEntry :=
  ⟨path.text, ""⟩

def decodeText (bytes : ByteArray) : Except StorageFault String :=
  match String.fromUTF8? bytes with
  | some text => .ok text
  | none => .error .notUtf8

def isSystemFile (entry : IO.FS.DirEntry) : IO Bool := do
  match ← request entry.path.metadata with
  | .ok metadata => return metadata.type == .file
  | .error _ => return false

instance : Storage IO where
  isDirectory path := path.systemEntry.root.isDir
  readText path := do
    let bytes ← request (IO.FS.readBinFile path.text)
    return bytes.bind decodeText
  fileNames path := request do
    let entries ← path.systemEntry.root.readDir
    let files ← entries.filterM isSystemFile
    return (files.map (·.fileName)).toList
  writeText path text := request (IO.FS.writeFile path.text text)
  ownName? path := do
    match ← request (IO.FS.realPath path.text) with
    | .ok real => return real.fileName
    | .error _ => return none

end CommandLine

end HackToolchain

def main (arguments : List String) : IO UInt32 := do
  let outcome ← (HackToolchain.CommandLine.execute arguments : IO HackToolchain.CommandLine.Outcome)
  IO.print outcome.stdout
  IO.eprint outcome.stderr
  return .ofNat outcome.exitCode
