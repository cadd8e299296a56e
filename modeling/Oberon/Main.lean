import Oberon.CommandLine

/-!
# The program

Runs the command line on the files of the machine.
-/

namespace Oberon
namespace Program

/-- The fault behind an error of the system, whose code may come negated. -/
def faultOf : IO.Error → FileFault
  | .noFileOrDirectory _ _ _ => .missing
  | .inappropriateType _ code text =>
    if code = 20 ∨ code = -20 then .notDirectory
    else if code = 21 ∨ code = -21 then .isDirectory
    else .system text
  | error => .system (toString error)

/-- Turns an error of the system into a value. -/
def attempt {α : Type} (action : IO α) : IO (Except FileFault α) := do
  try
    return .ok (← action)
  catch error =>
    return .error (faultOf error)

instance : FileStore IO where
  read path := attempt (IO.FS.readBinFile path)
  write path content := attempt (IO.FS.writeBinFile path content)
  remove path := attempt (IO.FS.removeFile path)

end Program
end Oberon

/-- Runs the program on its arguments. -/
def main (arguments : List String) : IO UInt32 := do
  let report : Oberon.Report ← Oberon.Command.execute arguments
  IO.print report.output
  IO.eprint report.errors
  return report.exitCode
