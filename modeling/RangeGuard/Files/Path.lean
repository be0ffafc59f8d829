import RangeGuard.Text.Split

/-!
# Paths of class files

Paths are texts in which slashes separate names. The class `a.b.C` stands in the file `a/b/C.jir`
below a directory (`classFile`). Nothing is asked of the file system here: joining a part to a path,
changing an extension and listing the directories around a path are all done on the text.
-/

namespace RangeGuard

namespace Path

/-- The path starts with a slash, so it leads from the root. -/
def isAbsolute (path : String) : Bool := decide (path.toList.head? = some '/')

/-- The path of `part` below `base`. A part that starts with a slash is a path of its own; otherwise
a slash goes between the two, unless the base is empty or ends with one. -/
def join (base part : String) : String :=
  if isAbsolute part then part
  else if base = "" ∨ Text.endsWith base '/' then base ++ part
  else base ++ "/" ++ part

/-- Drops the slashes at the start of a reversed path, and the names `.` that follow a slash. -/
def dropTrailing : List Char → List Char
  | '/' :: rest => dropTrailing rest
  | '.' :: '/' :: rest => dropTrailing rest
  | cs => cs

/-- The last name of a reversed path without trailing slashes, again reversed. -/
def lastName (cs : List Char) : List Char := cs.takeWhile (· ≠ '/')

/-- The number of characters from the last dot of a reversed name on. A name without a dot, or with
none but at its start, has no extension. -/
def extensionLength (name : List Char) : Nat :=
  match Text.cutAt '.' name with
  | some (extension, stem) => if stem.isEmpty then 0 else extension.length + 1
  | none => 0

/-- Replaces the extension of the last name, or adds one. Slashes after the last name are dropped. A
path that does not end with a proper name stays as it is. -/
def withExtension (path extension : String) : String :=
  let reversed := dropTrailing path.toList.reverse
  let name := lastName reversed
  if name = [] ∨ name = ['.'] ∨ name = ['.', '.'] then path
  else String.ofList (reversed.drop (extensionLength name)).reverse ++ "." ++ extension

/-- The names on a path that lead somewhere: empty names and single dots stay where they are. -/
def steps (path : String) : List String :=
  (Text.splitAll '/' path).filter fun name => name ≠ "" ∧ name ≠ "."

/-- The paths that stop short of the last step of a path, the nearest first. Two dots are a step
like any name, so what is around `a/b/..` is `a/b` and then `a`. -/
def around (path : String) : List String :=
  let root := if isAbsolute path then "/" else ""
  (List.range (steps path).length).tail.reverse.map fun n =>
    root ++ "/".intercalate ((steps path).take n)

end Path

/-- The extension of class files. -/
def classFileExtension : String := "jir"

/-- The file of a class below a directory. -/
def classFile (directory className : String) : String :=
  Path.withExtension ((Text.splitAll '.' className).foldl Path.join directory) classFileExtension

end RangeGuard
