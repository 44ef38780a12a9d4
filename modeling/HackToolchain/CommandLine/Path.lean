import HackToolchain.Text.Split

/-!
# Paths

A path is a text whose slashes separate components. Empty components and components `.` at its end say
nothing about the file it names. The last of the other components is the file name, unless it is `..`,
which names no file. The extension of a file name follows its last dot; a dot in front of the whole
name starts none.
-/

namespace HackToolchain

namespace CommandLine

/-- The path of a file or directory, as it was given. Only valid Unicode is a path here; a system may
have other names. -/
structure Path where
  text : String
  deriving Repr, DecidableEq

namespace Path

def isSlash (c : Char) : Bool :=
  c == '/'

def components (path : Path) : List (List Char) :=
  Text.pieces isSlash path.text.toList

/-- Whether a component at the end of a path can be left out. -/
def isIdle (component : List Char) : Bool :=
  component == [] || component == ['.']

/-- The components up to the last that is not idle, last first. -/
def trimmed (path : Path) : List (List Char) :=
  path.components.reverse.dropWhile isIdle

/-- The name of the file, and the components before it, last first. -/
def splitName? (path : Path) : Option (List Char × List (List Char)) :=
  match path.trimmed with
  | [] => none
  | ['.', '.'] :: _ => none
  | name :: parents => some (name, parents)

def fileName? (path : Path) : Option String :=
  path.splitName?.map fun parts => String.ofList parts.1

def splitExtension (name : List Char) : List Char × Option (List Char) :=
  match Text.splitFirst ['.'] name.reverse with
  | none => (name, none)
  | some (_, []) => (name, none)
  | some (extension, stem) => (stem.reverse, some extension.reverse)

def stem? (path : Path) : Option String :=
  path.splitName?.map fun parts => String.ofList (splitExtension parts.1).1

def extension? (path : Path) : Option String :=
  path.splitName?.bind fun parts => (splitExtension parts.1).2.map String.ofList

def hasExtension (path : Path) (extension : String) : Bool :=
  path.extension? == some extension

/-- The path with as many characters cut off its end as its extension has. -/
def withoutExtension (path : Path) : Path :=
  match path.extension? with
  | none => path
  | some extension =>
    ⟨String.ofList (path.text.toList.take (path.text.length - extension.length))⟩

/-- The path with a text in place of its extension and of what follows it. If the path without its
extension has no file name, as `..` has not, nothing is put in its place. -/
def withExtension (path : Path) (extension : String) : Path :=
  match path.withoutExtension.splitName? with
  | none => path.withoutExtension
  | some (name, parents) =>
    let kept := (splitExtension name).1 :: parents
    ⟨String.ofList (['/'].intercalate kept.reverse) ++ "." ++ extension⟩

def join (directory : Path) (name : String) : Path :=
  match directory.text.toList.getLast? with
  | none | some '/' => ⟨directory.text ++ name⟩
  | _ => ⟨directory.text ++ "/" ++ name⟩

example : (Path.mk "a/b.vm").withExtension "asm" = ⟨"a/b.asm"⟩ := by decide +kernel

example : (Path.mk "b.x.vm/./").withExtension "asm" = ⟨"b.x.asm"⟩ := by decide +kernel

example : (Path.mk "d/..vm").withExtension "asm" = ⟨"d/.."⟩ := by decide +kernel

example : (Path.mk "..vm/").withExtension "asm" = ⟨"..asm"⟩ := by decide +kernel

example : (Path.mk ".vm").extension? = none := by decide +kernel

example : (Path.mk "..vm").stem? = some "." := by decide +kernel

end Path

end CommandLine

end HackToolchain
