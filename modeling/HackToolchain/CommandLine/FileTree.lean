import HackToolchain.CommandLine.Storage

/-!
# File trees

A tree of directories and files with a working directory. A place in the tree is the list of names on
the way from the root. A path is followed component by component, and every component but the last has
to end at a directory; `..` at the root stays there.
-/

namespace HackToolchain

namespace CommandLine

inductive Entry
  | directory
  | file (bytes : ByteArray)

/-- The names on the way from the root. -/
abbrev Place := List String

/-- A tree of files, seen from a working directory. The root is a directory without an entry. Names
are taken to be valid Unicode. -/
structure FileTree where
  current : Place
  entries : List (Place × Entry)

namespace FileTree

def entry? (tree : FileTree) : Place → Option Entry
  | [] => some .directory
  | place => tree.entries.lookup place

def isDirectoryAt (tree : FileTree) (place : Place) : Bool :=
  match tree.entry? place with
  | some .directory => true
  | _ => false

def follow (tree : FileTree) (place : Place) (component : String) : Except StorageFault Place :=
  if !tree.isDirectoryAt place then .error .notDirectory
  else if component = "" ∨ component = "." then .ok place
  else if component = ".." then .ok place.dropLast
  else if (tree.entry? (place ++ [component])).isSome then .ok (place ++ [component])
  else .error .notFound

def origin (tree : FileTree) (path : Path) : Place :=
  if path.text.toList.head? = some '/' then [] else tree.current

def steps (path : Path) : List String :=
  path.components.map String.ofList

def resolve (tree : FileTree) (path : Path) : Except StorageFault Place :=
  if path.text = "" then .error .notFound
  else (steps path).foldlM tree.follow (tree.origin path)

def isDirectory (tree : FileTree) (path : Path) : Bool :=
  match tree.resolve path with
  | .ok place => tree.isDirectoryAt place
  | .error _ => false

def readText (tree : FileTree) (path : Path) : Except StorageFault String := do
  let place ← tree.resolve path
  match tree.entry? place with
  | none => .error .notFound
  | some .directory => .error .isDirectory
  | some (.file bytes) =>
    match String.fromUTF8? bytes with
    | some text => .ok text
    | none => .error .notUtf8

/-- The name of an entry if it is a file directly inside a place. -/
def fileNameIn? (place : Place) : Place × Entry → Option String
  | (path, .file _) => if path.dropLast = place then path.getLast? else none
  | (_, .directory) => none

def fileNames (tree : FileTree) (path : Path) : Except StorageFault (List String) := do
  let place ← tree.resolve path
  if tree.isDirectoryAt place then .ok (tree.entries.filterMap (fileNameIn? place))
  else .error .notDirectory

/-- Puts an entry at a place, instead of what was there before. -/
def put (tree : FileTree) (place : Place) (entry : Entry) : FileTree :=
  if (tree.entries.lookup place).isSome then
    { tree with entries := tree.entries.map fun old => if old.1 = place then (place, entry) else old }
  else { tree with entries := tree.entries ++ [(place, entry)] }

/-- The place at which writing to a path puts a file. The directory has to exist; a path that ends in
a slash, `.` or `..` is that of a directory. -/
def target (tree : FileTree) (path : Path) : Except StorageFault Place := do
  if path.text = "" then .error .notFound
  else match (steps path).filter (· ≠ "") |>.reverse with
    | [] => .error .isDirectory
    | last :: before =>
      let place ← before.reverse.foldlM tree.follow (tree.origin path)
      if !tree.isDirectoryAt place then .error .notDirectory
      else if path.text.toList.getLast? = some '/' ∨ last = "." ∨ last = ".." then
        .error .isDirectory
      else if tree.isDirectoryAt (place ++ [last]) then .error .isDirectory
      else .ok (place ++ [last])

/-- Writes a file; the tree stays as it is if that is impossible. -/
def writeText (tree : FileTree) (path : Path) (text : String) :
    Except StorageFault Unit × FileTree :=
  match tree.target path with
  | .ok place => (.ok (), tree.put place (.file text.toUTF8))
  | .error fault => (.error fault, tree)

/-- The name of the directory that a path leads to; the root has none. -/
def ownName? (tree : FileTree) (path : Path) : Option String :=
  match tree.resolve path with
  | .ok place => place.getLast?
  | .error _ => none

/-- Makes a directory at a place, and those that it is in. -/
def addDirectory (tree : FileTree) (place : Place) : FileTree :=
  (List.range place.length).foldl (fun tree depth =>
    let part := place.take (depth + 1)
    if (tree.entry? part).isSome then tree else tree.put part .directory) tree

/-- Puts a file at a place, and makes the directories that it is in. -/
def addFile (tree : FileTree) (place : Place) (bytes : ByteArray) : FileTree :=
  (tree.addDirectory place.dropLast).put place (.file bytes)

/-- The tree with nothing but a working directory. -/
def ofCurrent (current : Place) : FileTree :=
  addDirectory ⟨current, []⟩ current

instance : Storage (StateM FileTree) where
  isDirectory path := do return (← get).isDirectory path
  readText path := do return (← get).readText path
  fileNames path := do return (← get).fileNames path
  writeText path text := modifyGet (·.writeText path text)
  ownName? path := do return (← get).ownName? path

end FileTree

end CommandLine

end HackToolchain
