import Oberon.Compilation.Module
import Oberon.FileTree.Store
import Oberon.Path

/-!
# Builds

A build compiles source files into a pair of files next to each of them.  Nothing is written for a
module that does not compile; what an earlier build left for it is removed.
-/

namespace Oberon

/-- Why a build failed. -/
inductive BuildError
  | unreadable (path : String) (fault : FileFault)
  | unwritable (path : String) (fault : FileFault)
  | irremovable (path : String) (fault : FileFault)
  | rejected (error : CompileError)
  deriving DecidableEq, Repr

/-- The wording of a failed build. -/
def BuildError.message : BuildError → String
  | unreadable path fault => "failed to read '" ++ path ++ "': " ++ fault.message
  | unwritable path fault => "failed to write '" ++ path ++ "': " ++ fault.message
  | irremovable path fault => "failed to remove '" ++ path ++ "': " ++ fault.message
  | rejected error => error.message

namespace Build

variable {m : Type → Type} [Monad m] [FileStore m]

/-- Reads a file that must hold text. -/
def readText (path : String) : m (Except FileFault String) := do
  match ← FileStore.read path with
  | .error fault => return .error fault
  | .ok content =>
    match String.fromUTF8? content with
    | some text => return .ok text
    | none => return .error .notText

/-- Writes an output. -/
def writeOutput (path text : String) : ExceptT BuildError m Unit := do
  match ← FileStore.write (m := m) path text.toUTF8 with
  | .ok _ => return ()
  | .error fault => throw (.unwritable path fault)

/-- Removes what an earlier build may have left. -/
def dropOutput (path : String) : ExceptT BuildError m Unit := do
  match ← FileStore.remove (m := m) path with
  | .ok _ => return ()
  | .error .missing => return ()
  | .error fault => throw (.irremovable path fault)

/-- Compiles a source file into its two outputs. -/
def file (limits : Limits) (path : String) : ExceptT BuildError m Unit := do
  match ← readText (m := m) path with
  | .error fault => throw (.unreadable path fault)
  | .ok source =>
    match compile path source (Path.name (Path.interface path)) limits with
    | .error error =>
      dropOutput (Path.implementation path)
      dropOutput (Path.interface path)
      throw (.rejected error)
    | .ok units =>
      writeOutput (Path.implementation path) units.implementation
      writeOutput (Path.interface path) units.interface

/-- Compiles source files in order, up to the first that fails. -/
def files (limits : Limits) (paths : List String) : ExceptT BuildError m Unit :=
  paths.forM (file limits)

end Build
end Oberon
