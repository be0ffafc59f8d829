import RangeGuard.Files.Path

/-!
# File systems

The program reads class files and writes drawings. What it needs of a file system is a record of
four operations, so that it can run on the files of the machine and on a disk in memory alike.
Making a directory makes those on the way to it first (`FileSystem.makeDirectories`).
-/

namespace RangeGuard

/-- Why a file operation fails. -/
inductive FileError where
  /-- A name on the path is not there. -/
  | notFound
  /-- Anything else: a file where a directory is needed or the other way round, something where a
  directory is to be made, or a path that is no path. -/
  | unusable
deriving DecidableEq

/-- The file operations that the program needs. -/
structure FileSystem (m : Type → Type) where
  /-- The content of a file. -/
  read : String → m (Except FileError ByteArray)
  /-- There is a directory at a path. -/
  hasDirectory : String → m Bool
  /-- Makes one directory, in a directory that is there. -/
  makeDirectory : String → m (Except FileError Unit)
  /-- Writes a file, replacing its content. -/
  write : String → String → m (Except FileError Unit)

namespace FileSystem

variable {m : Type → Type} [Monad m]

/-- Makes one directory, unless it is there already. -/
def ensureDirectory (fs : FileSystem m) (path : String) : m (Except FileError Unit) := do
  match ← fs.makeDirectory path with
  | .ok () => return .ok ()
  | .error .notFound => return .error .notFound
  | .error e => return if ← fs.hasDirectory path then .ok () else .error e

/-- Ensures a directory. If something on the way to it is missing, the nearest of the directories
around it is ensured first, in the same way, and then the directory is tried once more. -/
def ensureWithin (fs : FileSystem m) (path : String) : List String → m (Except FileError Unit)
  | [] => fs.ensureDirectory path
  | nearest :: further => do
    match ← fs.ensureDirectory path with
    | .error .notFound =>
      match ← fs.ensureWithin nearest further with
      | .ok () => fs.ensureDirectory path
      | .error e => return .error e
    | result => return result

/-- Makes the directory at a path and those on the way to it, as far as they are missing. The path
itself is never taken apart at a single dot: `a/.` needs the directory `a`, while `a/b/..` makes
`a/b` on its way. -/
def makeDirectories (fs : FileSystem m) (path : String) : m (Except FileError Unit) :=
  fs.ensureWithin path (Path.around path)

end FileSystem

end RangeGuard
