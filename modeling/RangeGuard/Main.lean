import RangeGuard.Command.Run

/-!
# The program

The command on the files of the machine: the only module that does input and output.
-/

namespace RangeGuard

/-- Turns an error of the machine into a file error. -/
def FileError.ofMachine {α : Type} (action : IO α) : IO (Except FileError α) := do
  try
    return .ok (← action)
  catch e =>
    match e with
    | .noFileOrDirectory _ _ _ => return .error .notFound
    | _ => return .error .unusable

/-- The files of the machine. Only below a directory does a single dot lead somewhere. -/
def machineFiles : FileSystem IO where
  read path := FileError.ofMachine (IO.FS.readBinFile path)
  hasDirectory path := return (← FileError.ofMachine (IO.FS.realPath (path ++ "/."))).isOk
  makeDirectory path := FileError.ofMachine (IO.FS.createDir path)
  write path content := FileError.ofMachine (IO.FS.writeFile path content)

end RangeGuard

/-- Runs the command, prints its report and ends with its exit code. -/
def main (arguments : List String) : IO UInt32 := do
  let report ← RangeGuard.machineFiles.runCommand arguments
  IO.print report.output
  IO.eprint report.diagnostics
  return report.code
