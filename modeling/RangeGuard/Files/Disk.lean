import RangeGuard.Files.System

/-!
# Disks in memory

A disk in memory is a list of directories and files with their places. `Disk.walk` follows the names
of a path, with dots for the directory itself and for the one around it; `Disk.fileSystem` gives a
disk the operations of a file system.
-/

namespace RangeGuard

/-- Something on a disk. -/
inductive Entry where
  /-- A directory. -/
  | directory
  /-- A file with its content. -/
  | file (content : ByteArray)

/-- A disk in memory. A place is given by the names on the way from the root; the root is always a
directory. -/
structure Disk where
  /-- The directories and files with their places. -/
  entries : List (List String × Entry)
  /-- The directory from which paths start that do not start with a slash. -/
  workingDirectory : List String

namespace Disk

/-- The longest name, in bytes. -/
def nameLimit : Nat := 255

/-- The longest path, in bytes. -/
def pathLimit : Nat := 4095

/-- What is at a place. -/
def entry? (d : Disk) (place : List String) : Option Entry :=
  if place = [] then some .directory
  else (d.entries.find? fun e => e.1 = place).map (·.2)

/-- Puts something at a place, instead of what was there. -/
def put (d : Disk) (place : List String) (e : Entry) : Disk :=
  { d with entries := (place, e) :: d.entries.filter fun old => old.1 ≠ place }

/-- The place from which a path starts, and the names on it. Empty and overlong paths and paths with
a zero character are no paths. -/
def names (d : Disk) (path : String) : Except FileError (List String × List String) :=
  if path = "" then .error .notFound
  else if '\x00' ∈ path.toList ∨ pathLimit < path.utf8ByteSize then .error .unusable
  else .ok (if Path.isAbsolute path then [] else d.workingDirectory, Text.splitAll '/' path)

/-- Goes from a place along names. Each but the last has to lead to a directory; an empty name and a
single dot stay there, and two dots lead to the directory around it. -/
def walk (d : Disk) (place : List String) : List String → Except FileError (List String)
  | [] => .ok place
  | name :: rest =>
    -- whatever the next name is, also a dot, it needs a directory to stand in
    match d.entry? place with
    | none => .error .notFound
    | some (.file _) => .error .unusable
    | some .directory =>
      if name = "" ∨ name = "." then d.walk place rest
      else if name = ".." then d.walk place.dropLast rest
      else if nameLimit < name.utf8ByteSize then .error .unusable
      else d.walk (place ++ [name]) rest

/-- The content of the file at a path. -/
def read (d : Disk) (path : String) : Except FileError ByteArray := do
  let (start, names) ← d.names path
  let place ← d.walk start names
  match d.entry? place with
  | none => .error .notFound
  | some .directory => .error .unusable
  | some (.file content) => return content

/-- There is a directory at a path. -/
def hasDirectory (d : Disk) (path : String) : Bool :=
  match (do
    let (start, names) ← d.names path
    let place ← d.walk start names
    return d.entry? place : Except FileError (Option Entry)) with
  | .ok (some .directory) => true
  | _ => false

/-- Makes the directory at a path. The directory around it has to be there, and nothing at the path
itself; at the end of a path, dots always lead to something that is there. Slashes after the last
name do not count. -/
def makeDirectory (d : Disk) (path : String) : Except FileError Disk := do
  let (start, names) ← d.names path
  let names := names.filter (· ≠ "")
  let place ← d.walk start names
  -- a path that ends with dots leads to a directory that is there already
  if names.getLast? = some "." ∨ names.getLast? = some ".." then .error .unusable
  else match d.entry? place with
    | some _ => .error .unusable
    | none => return d.put place .directory

/-- Writes a file at a path. The directory has to be there. -/
def write (d : Disk) (path : String) (content : String) : Except FileError Disk := do
  let (start, names) ← d.names path
  let place ← d.walk start names
  match d.entry? place with
  | some .directory => .error .unusable
  | _ =>
    match d.entry? place.dropLast with
    | some .directory => return d.put place (.file content.toUTF8)
    | _ => .error .notFound

/-- Carries out an operation that changes the disk, unless it fails. -/
def attempt (operation : Disk → Except FileError Disk) : StateM Disk (Except FileError Unit) :=
  fun d => match operation d with
    | .ok changed => (.ok (), changed)
    | .error e => (.error e, d)

/-- The file operations on a disk. -/
def fileSystem : FileSystem (StateM Disk) where
  read path := fun d => (d.read path, d)
  hasDirectory path := fun d => (d.hasDirectory path, d)
  makeDirectory path := attempt fun d => d.makeDirectory path
  write path content := attempt fun d => d.write path content

end Disk

end RangeGuard
