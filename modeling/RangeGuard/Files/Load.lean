import RangeGuard.Files.System
import RangeGuard.Source.Class

/-!
# Loading classes

A class is loaded from its file. The content has to be text, the text has to be a class, and the
class has to be the one that was asked for; `LoadError` tells which of these failed.
-/

namespace RangeGuard

/-- Why a class cannot be loaded. -/
inductive LoadError where
  /-- There is no file for the class. -/
  | notFound (path : String)
  /-- The file cannot be read as text. -/
  | unreadable (path : String)
  /-- The text of the file is not a class. -/
  | invalid (path : String) (error : SourceError)
  /-- The file declares another class. -/
  | nameMismatch (expected found : String)
deriving DecidableEq

/-- The wording of an error. -/
def LoadError.message : LoadError → String
  | notFound path => "class file not found: " ++ path
  | unreadable path => "I/O error reading " ++ path
  | invalid path error => path ++ ": " ++ error.message
  | nameMismatch expected found => "expected class " ++ expected ++ ", file declares " ++ found

/-- The class of a given name in the content of the file at a path. -/
def Class.ofBytes (path className : String) (content : ByteArray) : Except LoadError Class :=
  match String.fromUTF8? content with
  | none => .error (.unreadable path)
  | some text =>
    match Class.parse text with
    | .error e => .error (.invalid path e)
    | .ok c => if c.name = className then .ok c else .error (.nameMismatch className c.name)

/-- Loads a class from its file below a directory. -/
def FileSystem.loadClass {m : Type → Type} [Monad m] (fs : FileSystem m)
    (directory className : String) : m (Except LoadError Class) := do
  let path := classFile directory className
  match ← fs.read path with
  | .error .notFound => return .error (.notFound path)
  | .error .unusable => return .error (.unreadable path)
  | .ok content => return Class.ofBytes path className content

end RangeGuard
