import RangeGuard.Check.Verdict
import RangeGuard.Command.Options
import RangeGuard.Drawing.Dot
import RangeGuard.Files.Load

/-!
# The command

Loads a class, draws its procedures if a directory for drawings is given, and reports the verdict.
`FileSystem.runCommand` does this on any file system, and its `Report` is all that it leaves behind
besides files: what it writes to the two output streams, and its exit code.
-/

namespace RangeGuard

/-- The result of a command. -/
structure Report where
  /-- The exit code: 0 for a verdict, 1 for a failure, 2 for wrong arguments. -/
  code : UInt32
  /-- What is printed. -/
  output : String
  /-- What is printed as an error. -/
  diagnostics : String

/-- The report of a failure. -/
def Report.failure (message : String) : Report := ⟨1, "", "Error: " ++ message ++ "\n"⟩

/-- The report of wrong arguments. -/
def Report.usage (e : UsageError) : Report := ⟨2, "", "error: " ++ e.message ++ "\n"⟩

/-- The drawing of a procedure with the states that its analysis found. -/
def Class.drawing (c : Class) (settings : Settings) (p : Procedure) : String :=
  (c.domainOf p).draw {} p (c.analyze settings p)

/-- The file for the drawing of a procedure. -/
def Class.drawingFile (c : Class) (directory : String) (p : Procedure) : String :=
  Path.join directory (c.name ++ "." ++ p.name ++ ".dot")

namespace FileSystem

variable {m : Type → Type} [Monad m]

/-- Writes the drawings of procedures, up to the first that cannot be written. -/
def writeDrawings (fs : FileSystem m) (c : Class) (settings : Settings) (directory : String) :
    List Procedure → m (Except String Unit)
  | [] => return .ok ()
  | p :: rest => do
    let path := c.drawingFile directory p
    match ← fs.write path (c.drawing settings p) with
    | .ok () => fs.writeDrawings c settings directory rest
    | .error _ => return .error ("Cannot write " ++ path)

/-- Draws the procedures of a class if a directory for drawings is given. -/
def drawClass (fs : FileSystem m) (c : Class) (settings : Settings) :
    Option String → m (Except String Unit)
  | none => return .ok ()
  | some directory => do
    match ← fs.makeDirectories directory with
    | .ok () => fs.writeDrawings c settings directory c.procedures
    | .error _ => return .error ("Cannot create " ++ directory)

/-- Runs the command with the given arguments. -/
def runCommand (fs : FileSystem m) (arguments : List String) : m Report := do
  match Options.parse arguments with
  | .error e => return .usage e
  | .ok (className, options) =>
    match ← fs.loadClass options.directory className with
    | .error e => return .failure e.message
    | .ok c =>
      match ← fs.drawClass c options.settings options.dot with
      | .error message => return .failure message
      | .ok () => return ⟨0, (c.verify options.settings).text, ""⟩

end FileSystem

end RangeGuard
