import Oberon.Build
import Oberon.Proofs.Files.Outputs

/-!
# Builds in a file tree

A build of a source file, seen as a function from a tree to a result and a tree.

**Steps.**  Writing and removing an output fails on a directory and succeeds everywhere else, also
where there is nothing to remove (`run_writeOutput`, `run_dropOutput` and their counterparts).

**Closed form.**  `settle` says what a build makes of a tree once it is known where the outputs go
and what the source compiles to.  That is all a build does (`build_eq_settle`).  It keeps the
directories, and files that are no outputs (`differAt_settle`).
-/

namespace Oberon
namespace FileTree

variable
  {t u : FileTree} {path text source : String} {location : Location} {limits : Limits}
  {sites : Sites}

/-! ## Running in a tree -/

section Running

variable
  {α β : Type} {action : ExceptT BuildError (StateM FileTree) α}
  {next : α → ExceptT BuildError (StateM FileTree) β}

/-- The result of an action in a tree, and the tree that it leaves. -/
def run (t : FileTree) (action : ExceptT BuildError (StateM FileTree) α) :
    Except BuildError α × FileTree :=
  StateT.run (ExceptT.run action) t

theorem run_bind_of_ok {a : α} (h : t.run action = (.ok a, u)) :
    t.run (action >>= next) = u.run (next a) := by
  rw [run] at h
  rw [run, ExceptT.run_bind, StateT.run_bind, h]
  rfl

theorem run_bind_of_error {error : BuildError} (h : t.run action = (.error error, u)) :
    t.run (action >>= next) = (.error error, u) := by
  rw [run] at h
  rw [run, ExceptT.run_bind, StateT.run_bind, h]
  rfl

theorem run_liftM {step : StateM FileTree α} {a : α} (h : StateT.run step t = (a, u)) :
    t.run (liftM step) = (.ok a, u) := by
  rw [run, ExceptT.run_liftM, StateT.run_map, h]
  rfl

theorem run_change_of_ok {step : FileTree → Except FileFault FileTree} (h : step t = .ok u) :
    StateT.run (change step) t = (.ok (), u) := by
  simp only [change, StateT.run_bind, StateT.run_get, pure_bind, h]
  rfl

theorem run_change_of_error
    {step : FileTree → Except FileFault FileTree} {fault : FileFault} (h : step t = .error fault) :
    StateT.run (change step) t = (.error fault, t) := by
  simp only [change, StateT.run_bind, StateT.run_get, pure_bind, h]
  rfl

end Running

/-! ## Reading, writing and removing -/

/-- The text of a file. -/
def readText (t : FileTree) (path : String) : Except FileFault String :=
  match t.read path with
  | .error fault => .error fault
  | .ok content =>
    match String.fromUTF8? content with
    | some text => .ok text
    | none => .error .notText

theorem run_readText (t : FileTree) (path : String) :
    StateT.run (Build.readText (m := StateM FileTree) path) t = (t.readText path, t) := by
  simp only [Build.readText, readText, FileStore.read, bind_assoc, StateT.run_bind, StateT.run_get,
    pure_bind]
  cases t.read path with
  | error fault => rfl
  | ok content =>
    dsimp only
    cases String.fromUTF8? content <;> rfl

theorem run_writeOutput_of_isDirectory
    (hlocation : t.resolve path = .ok location) (hdirectory : t.IsDirectory location) :
    t.run (Build.writeOutput path text) = (.error (.unwritable path .isDirectory), t) := by
  have hwrite : t.write path text.toUTF8 = .error .isDirectory := by
    simp [write, hlocation, hdirectory.get?_eq]
  rw [Build.writeOutput, FileStore.write, instFileStoreStateM,
    run_bind_of_ok (run_liftM (run_change_of_error hwrite))]
  rfl

theorem run_writeOutput
    (hlocation : t.resolve path = .ok location) (hfile : ¬ t.IsDirectory location) :
    t.run (Build.writeOutput path text) = (.ok (), t.put location text.toUTF8) := by
  have hwrite : t.write path text.toUTF8 = .ok (t.put location text.toUTF8) := by
    have hnode : t.get? location = some .directory → False := hfile
    simp [write, hlocation, put]
  rw [Build.writeOutput, FileStore.write, instFileStoreStateM,
    run_bind_of_ok (run_liftM (run_change_of_ok hwrite))]
  rfl

theorem run_dropOutput_of_isDirectory
    (hlocation : t.resolve path = .ok location) (hdirectory : t.IsDirectory location) :
    t.run (Build.dropOutput path) = (.error (.irremovable path .isDirectory), t) := by
  have hremove : t.remove path = .error .isDirectory := by
    simp [remove, hlocation, hdirectory.get?_eq]
  rw [Build.dropOutput, FileStore.remove, instFileStoreStateM,
    run_bind_of_ok (run_liftM (run_change_of_error hremove))]
  rfl

/-- Removing an output that is no directory succeeds, whether it is there or not. -/
theorem run_dropOutput
    (hlocation : t.resolve path = .ok location) (hfile : ¬ t.IsDirectory location) :
    t.run (Build.dropOutput path) = (.ok (), t.erase location) := by
  rw [Build.dropOutput, FileStore.remove, instFileStoreStateM]
  cases hnode : t.get? location with
  | none =>
    have hremove : t.remove path = .error .missing := by simp [remove, hlocation, hnode]
    rw [run_bind_of_ok (run_liftM (run_change_of_error hremove)), erase_eq_self hnode]
    rfl
  | some node =>
    cases node with
    | directory => exact absurd hnode hfile
    | file content =>
      have hremove : t.remove path = .ok (t.erase location) := by
        simp [remove, hlocation, hnode]
      rw [run_bind_of_ok (run_liftM (run_change_of_ok hremove))]
      rfl

/-! ## One build -/

/-- The result of building a source file in a tree, and the tree that is left. -/
def build (t : FileTree) (limits : Limits) (path : String) : Except BuildError Unit × FileTree :=
  t.run (Build.file limits path)

theorem build_of_unreadable {fault : FileFault} (hread : t.readText path = .error fault) :
    t.build limits path = (.error (.unreadable path fault), t) := by
  rw [build, Build.file, run_bind_of_ok (run_liftM (run_readText t path)), hread]
  rfl

/--
What a build makes of a tree, by the locations of the outputs and by what the source compiles to.
An output that is a directory stops it, and what was done before stays.
-/
def settle (t : FileTree) (path : String) (sites : Sites) :
    Except CompileError Units → Except BuildError Unit × FileTree
  | .error error =>
    if t.IsDirectory sites.implementation then
      (.error (.irremovable (Path.implementation path) .isDirectory), t)
    else if t.IsDirectory sites.interface then
      (.error (.irremovable (Path.interface path) .isDirectory), t.erase sites.implementation)
    else (.error (.rejected error), (t.erase sites.implementation).erase sites.interface)
  | .ok units =>
    if t.IsDirectory sites.implementation then
      (.error (.unwritable (Path.implementation path) .isDirectory), t)
    else if t.IsDirectory sites.interface then
      (.error (.unwritable (Path.interface path) .isDirectory),
        t.put sites.implementation units.implementation.toUTF8)
    else
      (.ok (),
        (t.put sites.implementation units.implementation.toUTF8).put sites.interface
          units.interface.toUTF8)

theorem build_eq_settle (hread : t.readText path = .ok source) (hsites : sites.At t path) :
    t.build limits path =
      t.settle path sites (compile path source (Path.name (Path.interface path)) limits) := by
  rw [build, Build.file, run_bind_of_ok (run_liftM (run_readText t path)), hread]
  dsimp only
  cases compile path source (Path.name (Path.interface path)) limits with
  | error error =>
    dsimp only
    rw [settle]
    by_cases hfirst : t.IsDirectory sites.implementation
    · rw [run_bind_of_error (run_dropOutput_of_isDirectory hsites.implementation hfirst),
        if_pos hfirst]
    · have hsame : SameDirectories t (t.erase sites.implementation) := sameDirectories_erase hfirst
      have hinterface := hsame.resolve_eq_ok hsites.interface
      rw [run_bind_of_ok (run_dropOutput hsites.implementation hfirst), if_neg hfirst]
      by_cases hsecond : t.IsDirectory sites.interface
      · have hdrop := run_dropOutput_of_isDirectory hinterface (hsame.isDirectory hsecond)
        rw [run_bind_of_error hdrop, if_pos hsecond]
      · have hdrop := run_dropOutput hinterface (hsame.not_isDirectory hsecond)
        rw [run_bind_of_ok hdrop, if_neg hsecond]
        rfl
  | ok units =>
    dsimp only
    rw [settle]
    by_cases hfirst : t.IsDirectory sites.implementation
    · rw [run_bind_of_error (run_writeOutput_of_isDirectory hsites.implementation hfirst),
        if_pos hfirst]
    · have hsame : SameDirectories t (t.put sites.implementation units.implementation.toUTF8) :=
        sameDirectories_put hfirst
      have hinterface := hsame.resolve_eq_ok hsites.interface
      rw [run_bind_of_ok (run_writeOutput hsites.implementation hfirst), if_neg hfirst]
      by_cases hsecond : t.IsDirectory sites.interface
      · rw [run_writeOutput_of_isDirectory hinterface (hsame.isDirectory hsecond), if_pos hsecond]
      · rw [run_writeOutput hinterface (hsame.not_isDirectory hsecond), if_neg hsecond]

/-- Two trees that differ at most in the files at the locations of two outputs. -/
structure DifferAt (sites : Sites) (t u : FileTree) : Prop where
  directories : SameDirectories t u
  others : ∀ location, location ≠ sites.implementation → location ≠ sites.interface →
    u.get? location = t.get? location

theorem DifferAt.refl (sites : Sites) (t : FileTree) : DifferAt sites t t :=
  ⟨.refl t, fun _ _ _ => rfl⟩

theorem DifferAt.trans {v : FileTree} (h : DifferAt sites t u) (h' : DifferAt sites u v) :
    DifferAt sites t v where
  directories := h.directories.trans h'.directories
  others location hfirst hsecond :=
    (h'.others location hfirst hsecond).trans (h.others location hfirst hsecond)

theorem differAt_put
    {content : ByteArray}
    (hlocation : location = sites.implementation ∨ location = sites.interface)
    (hfile : ¬ t.IsDirectory location) :
    DifferAt sites t (t.put location content) where
  directories := sameDirectories_put hfile
  others other hfirst hsecond := get?_put_of_ne (by rcases hlocation with rfl | rfl <;> assumption)

theorem differAt_erase
    (hlocation : location = sites.implementation ∨ location = sites.interface)
    (hfile : ¬ t.IsDirectory location) :
    DifferAt sites t (t.erase location) where
  directories := sameDirectories_erase hfile
  others other hfirst hsecond :=
    get?_erase_of_ne (by rcases hlocation with rfl | rfl <;> assumption)

theorem differAt_settle
    (t : FileTree) (path : String) (sites : Sites) (compiled : Except CompileError Units) :
    DifferAt sites t (t.settle path sites compiled).2 := by
  cases compiled with
  | error error =>
    rw [settle]
    split
    case isTrue => exact .refl sites t
    case isFalse hfirst =>
      have hdropped : DifferAt sites t (t.erase sites.implementation) :=
        differAt_erase (.inl rfl) hfirst
      split
      case isTrue => exact hdropped
      case isFalse hsecond =>
        have hsecond' := hdropped.directories.not_isDirectory hsecond
        exact hdropped.trans (differAt_erase (.inr rfl) hsecond')
  | ok units =>
    rw [settle]
    split
    case isTrue => exact .refl sites t
    case isFalse hfirst =>
      have hwritten : DifferAt sites t (t.put sites.implementation units.implementation.toUTF8) :=
        differAt_put (.inl rfl) hfirst
      split
      case isTrue => exact hwritten
      case isFalse hsecond =>
        have hsecond' := hwritten.directories.not_isDirectory hsecond
        exact hwritten.trans (differAt_put (.inr rfl) hsecond')

end FileTree
end Oberon
