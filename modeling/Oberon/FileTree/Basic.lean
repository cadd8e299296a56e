/-!
# File trees

A file tree holds the files and directories of a machine, and the working directory of a program.

**Resolution.**  A path is followed component by component, from the root if it begins with a slash
and from the working directory otherwise.  Every component that something follows must lead to a
directory; an empty component and `.` stay where they are, and `..` goes up, where the root is above
itself.
-/

namespace Oberon

/-- Why a file could not be read, written or removed. -/
inductive FileFault
  | missing
  | notDirectory
  | isDirectory
  | notText
  /-- Any other failure, in the words of the system. -/
  | system (text : String)
  deriving DecidableEq, Repr

/-- The wording of a file fault. -/
def FileFault.message : FileFault → String
  | missing => "No such file or directory (os error 2)"
  | notDirectory => "Not a directory (os error 20)"
  | isDirectory => "Is a directory (os error 21)"
  | notText => "stream did not contain valid UTF-8"
  | system text => text

/-- A file or a directory. -/
inductive Node
  | file (content : ByteArray)
  | directory

/-- The names that lead from the root to a node. -/
abbrev Location := List String

/-- The files and directories below the root, and the working directory. -/
structure FileTree where
  nodes : List (Location × Node) := []
  /-- The working directory. -/
  home : Location := []

namespace FileTree

/-- The node at a location; the working directory and all directories above it are always there. -/
def get? (t : FileTree) (location : Location) : Option Node :=
  if location <+: t.home then some .directory else t.nodes.lookup location

/-- Puts a node at a location. -/
def insert (t : FileTree) (location : Location) (node : Node) : FileTree :=
  { t with nodes := (location, node) :: t.nodes.filter fun entry => entry.1 != location }

/-- Removes the node at a location. -/
def erase (t : FileTree) (location : Location) : FileTree :=
  { t with nodes := t.nodes.filter fun entry => entry.1 != location }

/-- The components of a path. -/
def components : List Char → List (List Char)
  | [] => [[]]
  | '/' :: rest => [] :: components rest
  | c :: rest =>
    match components rest with
    | [] => [[c]]
    | first :: others => (c :: first) :: others

/-- Follows one component. -/
def enter (t : FileTree) (location : Location) (component : String) : Except FileFault Location :=
  match t.get? location with
  | none => .error .missing
  | some (.file _) => .error .notDirectory
  | some .directory =>
    if component = "" ∨ component = "." then .ok location
    else if component = ".." then .ok location.dropLast
    else .ok (location ++ [component])

/-- Where following a path begins. -/
def origin (t : FileTree) (path : List Char) : Location :=
  if path.head? = some '/' then [] else t.home

/-- Where a path leads; the last component need not exist. -/
def resolve (t : FileTree) (path : String) : Except FileFault Location :=
  if path = "" then .error .missing
  else
    (components path.toList).foldlM
      (fun location component => t.enter location (String.ofList component))
      (t.origin path.toList)

/-- The content of a file. -/
def read (t : FileTree) (path : String) : Except FileFault ByteArray :=
  match t.resolve path with
  | .error fault => .error fault
  | .ok location =>
    match t.get? location with
    | none => .error .missing
    | some .directory => .error .isDirectory
    | some (.file content) => .ok content

/-- Creates or replaces a file. -/
def write (t : FileTree) (path : String) (content : ByteArray) : Except FileFault FileTree :=
  match t.resolve path with
  | .error fault => .error fault
  | .ok location =>
    match t.get? location with
    | some .directory => .error .isDirectory
    | _ => .ok (t.insert location (.file content))

/-- Removes a file. -/
def remove (t : FileTree) (path : String) : Except FileFault FileTree :=
  match t.resolve path with
  | .error fault => .error fault
  | .ok location =>
    match t.get? location with
    | none => .error .missing
    | some .directory => .error .isDirectory
    | some (.file _) => .ok (t.erase location)

end FileTree
end Oberon
