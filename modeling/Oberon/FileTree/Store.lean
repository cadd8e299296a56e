import Oberon.FileTree.Basic

/-!
# Stores of files

What a program needs of a file system: whole files are read, written and removed.  A file tree is
such a store.
-/

namespace Oberon

/-- Access to files from a monad. -/
class FileStore (m : Type → Type) where
  /-- The content of a file. -/
  read (path : String) : m (Except FileFault ByteArray)
  /-- Creates or replaces a file. -/
  write (path : String) (content : ByteArray) : m (Except FileFault Unit)
  /-- Removes a file. -/
  remove (path : String) : m (Except FileFault Unit)

namespace FileTree

/-- Takes over a changed tree. -/
def change (step : FileTree → Except FileFault FileTree) :
    StateM FileTree (Except FileFault Unit) :=
  do
  match step (← get) with
  | .ok t =>
    set t
    return .ok ()
  | .error fault => return .error fault

instance : FileStore (StateM FileTree) where
  read path := return (← get).read path
  write path content := change fun t => t.write path content
  remove path := change fun t => t.remove path

end FileTree
end Oberon
