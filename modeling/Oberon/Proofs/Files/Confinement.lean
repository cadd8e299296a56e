import Oberon.Proofs.Files.Build

/-!
# What a build touches, and what it leaves behind

* a build changes only its outputs, and the same build right behind it changes nothing
  (`build_confined`);
* a build that succeeds leaves in its outputs what the source compiles to (`read_build_of_ok`);
* a build that fails may leave an output: the old interface if the implementation is a directory,
  and the new implementation if the interface is one.  `outputs_gone_iff` says when neither output
  is a file afterwards.
-/

namespace Oberon
namespace FileTree

variable
  {t u : FileTree} {path source : String} {location : Location} {limits : Limits} {sites : Sites}

theorem exists_sites_of_readText (hread : t.readText path = .ok source) :
    ∃ sites : Sites, sites.At t path := by
  cases hcontent : t.read path with
  | error fault => simp [readText, hcontent] at hread
  | ok content =>
    obtain ⟨sites, hsites, -⟩ := exists_sites_of_read hcontent
    exact ⟨sites, hsites⟩

theorem readText_of_resolve
    {text : String}
    (hlocation : t.resolve path = .ok location)
    (hnode : t.get? location = some (.file text.toUTF8)) :
    t.readText path = .ok text := by
  have htext : String.fromUTF8? text.toUTF8 = some text := by
    simp only [String.fromUTF8?, String.toUTF8_eq_toByteArray, dif_pos text.isValidUTF8]
    rfl
  simp only [readText, read_eq_ok_iff.mpr ⟨location, hlocation, hnode⟩, htext]

theorem readText_congr
    (ht : t.resolve path = .ok location)
    (hu : u.resolve path = .ok location)
    (hnode : u.get? location = t.get? location) :
    u.readText path = t.readText path := by
  rw [readText, readText, read, read, ht, hu]
  dsimp only
  rw [hnode]

/-! ## One build and the next -/

/-- A tree that a build left is the tree that the same build leaves of it. -/
theorem settle_settle
    {compiled : Except CompileError Units}
    (hapart : sites.implementation = sites.interface → t.IsDirectory sites.implementation) :
    (t.settle path sites compiled).2.settle path sites compiled =
      t.settle path sites compiled := by
  have hsame : SameDirectories t (t.settle path sites compiled).2 :=
    (differAt_settle t path sites compiled).directories
  by_cases hfirst : t.IsDirectory sites.implementation
  · cases compiled <;> simp only [settle, if_pos hfirst]
  have hne : sites.implementation ≠ sites.interface := mt hapart hfirst
  cases compiled with
  | error error =>
    have hgone : (t.erase sites.implementation).get? sites.implementation = none :=
      get?_erase_self hfirst
    by_cases hsecond : t.IsDirectory sites.interface
    · simp only [settle, if_neg hfirst, if_pos hsecond] at hsame ⊢
      rw [if_neg (hsame.not_isDirectory hfirst), if_pos (hsame.isDirectory hsecond),
        erase_eq_self hgone]
    · have hsecond' := (sameDirectories_erase hfirst).not_isDirectory hsecond
      have hboth : ((t.erase sites.implementation).erase sites.interface).get?
          sites.implementation = none := by
        rw [get?_erase_of_ne hne, hgone]
      simp only [settle, if_neg hfirst, if_neg hsecond] at hsame ⊢
      rw [if_neg (hsame.not_isDirectory hfirst), if_neg (hsame.not_isDirectory hsecond),
        erase_eq_self hboth, erase_eq_self (get?_erase_self hsecond')]
  | ok units =>
    by_cases hsecond : t.IsDirectory sites.interface
    · simp only [settle, if_neg hfirst, if_pos hsecond] at hsame ⊢
      rw [if_neg (hsame.not_isDirectory hfirst), if_pos (hsame.isDirectory hsecond), put_put_self]
    · simp only [settle, if_neg hfirst, if_neg hsecond] at hsame ⊢
      rw [if_neg (hsame.not_isDirectory hfirst), if_neg (hsame.not_isDirectory hsecond),
        put_put_again hne]

/-- A build that succeeds wrote both outputs, neither of which was a directory. -/
theorem settle_eq_ok
    {compiled : Except CompileError Units} (h : (t.settle path sites compiled).1 = .ok ()) :
    ∃ units,
      compiled = .ok units ∧
      ¬ t.IsDirectory sites.implementation ∧
      ¬ t.IsDirectory sites.interface ∧
      (t.settle path sites compiled).2 =
        (t.put sites.implementation units.implementation.toUTF8).put sites.interface
          units.interface.toUTF8 := by
  cases compiled with
  | error error =>
    rw [settle] at h
    split at h
    · cases h
    · split at h <;> cases h
  | ok units =>
    rw [settle] at h ⊢
    split at h
    case isTrue => cases h
    case isFalse hfirst =>
      split at h
      case isTrue => cases h
      case isFalse hsecond =>
        refine ⟨units, rfl, hfirst, hsecond, ?_⟩
        rw [if_neg hfirst, if_neg hsecond]

/--
What a build does: nothing if the source cannot be read, and otherwise what the locations and the
compilation say.
-/
theorem build_cases (t : FileTree) (limits : Limits) (path : String) :
    (∃ fault,
      t.readText path = .error fault ∧
      t.build limits path = (.error (.unreadable path fault), t)) ∨
    ∃ source, ∃ sites : Sites,
      t.readText path = .ok source ∧
      sites.At t path ∧
      t.build limits path =
        t.settle path sites (compile path source (Path.name (Path.interface path)) limits) := by
  cases hread : t.readText path with
  | error fault => exact .inl ⟨fault, rfl, build_of_unreadable hread⟩
  | ok source =>
    obtain ⟨sites, hsites⟩ := exists_sites_of_readText hread
    exact .inr ⟨source, sites, rfl, hsites, build_eq_settle hread hsites⟩

theorem build_eq_ok (h : (t.build limits path).1 = .ok ()) :
    ∃ source units, ∃ sites : Sites,
      t.readText path = .ok source ∧
      compile path source (Path.name (Path.interface path)) limits = .ok units ∧
      sites.At t path ∧
      ¬ t.IsDirectory sites.implementation ∧
      ¬ t.IsDirectory sites.interface ∧
      (t.build limits path).2 =
        (t.put sites.implementation units.implementation.toUTF8).put sites.interface
          units.interface.toUTF8 := by
  obtain ⟨fault, -, hbuild⟩ | ⟨source, sites, hread, hsites, hbuild⟩ := build_cases t limits path
  · rw [hbuild] at h
    cases h
  · rw [hbuild] at h ⊢
    obtain ⟨units, hcompile, hfirst, hsecond, htree⟩ := settle_eq_ok h
    exact ⟨source, units, sites, hread, hcompile, hsites, hfirst, hsecond, htree⟩

/-- A module that compiles is written, if no output is a directory. -/
theorem build_of_units
    {units : Units} {first second : Location}
    (hread : t.readText path = .ok source)
    (hcompile : compile path source (Path.name (Path.interface path)) limits = .ok units)
    (hfirst : t.resolve (Path.implementation path) = .ok first)
    (hsecond : t.resolve (Path.interface path) = .ok second)
    (hfirst' : ¬ t.IsDirectory first)
    (hsecond' : ¬ t.IsDirectory second) :
    t.build limits path =
      (.ok (), (t.put first units.implementation.toUTF8).put second units.interface.toUTF8) := by
  obtain ⟨sites, hsites⟩ := exists_sites_of_readText hread
  obtain rfl : sites.implementation = first :=
    Except.ok.inj (hsites.implementation.symm.trans hfirst)
  obtain rfl : sites.interface = second := Except.ok.inj (hsites.interface.symm.trans hsecond)
  rw [build_eq_settle hread hsites, hcompile, settle, if_neg hfirst', if_neg hsecond']

/-- A location is that of an output of a source. -/
def IsOutput (t : FileTree) (path : String) (location : Location) : Prop :=
  t.resolve (Path.implementation path) = .ok location ∨
    t.resolve (Path.interface path) = .ok location

theorem sameDirectories_build (t : FileTree) (limits : Limits) (path : String) :
    SameDirectories t (t.build limits path).2 := by
  obtain ⟨fault, -, hbuild⟩ | ⟨source, sites, -, -, hbuild⟩ := build_cases t limits path
  · rw [hbuild]
    exact .refl t
  · rw [hbuild]
    exact (differAt_settle t path sites _).directories

theorem get?_build_of_not_isOutput (hlocation : ¬ t.IsOutput path location) :
    (t.build limits path).2.get? location = t.get? location := by
  obtain ⟨fault, -, hbuild⟩ | ⟨source, sites, -, hsites, hbuild⟩ := build_cases t limits path
  · rw [hbuild]
  · rw [hbuild]
    refine (differAt_settle t path sites _).others location ?_ ?_
    · rintro rfl
      exact hlocation (.inl hsites.implementation)
    · rintro rfl
      exact hlocation (.inr hsites.interface)

theorem build_build
    (himplementation : Path.implementation path ≠ path)
    (hinterface : Path.interface path ≠ path) :
    (t.build limits path).2.build limits path = t.build limits path := by
  obtain ⟨fault, -, hbuild⟩ | ⟨source, sites, hread, hsites, hbuild⟩ := build_cases t limits path
  · rw [hbuild, hbuild]
  · have hdiffer := differAt_settle t path sites
      (compile path source (Path.name (Path.interface path)) limits)
    have hsites' := hdiffer.directories.at hsites
    -- the source is none of the outputs, so the second build reads what the first one read
    have hnode := hdiffer.others sites.source (mt hsites.own_implementation himplementation)
      (mt hsites.own_interface hinterface)
    have hread' := (readText_congr hsites.source hsites'.source hnode).trans hread
    rw [hbuild, build_eq_settle hread' hsites', settle_settle hsites.apart]

/-- After a successful build both outputs can be read. -/
theorem read_build_of_ok (hok : (t.build limits path).1 = .ok ()) :
    ∃ source units,
      t.readText path = .ok source ∧
      compile path source (Path.name (Path.interface path)) limits = .ok units ∧
      (t.build limits path).2.read (Path.implementation path) =
        .ok units.implementation.toUTF8 ∧
      (t.build limits path).2.read (Path.interface path) = .ok units.interface.toUTF8 := by
  obtain ⟨source, units, sites, hread, hcompile, hsites, hfirst, hsecond, htree⟩ :=
    build_eq_ok hok
  have hsites' := (sameDirectories_build t limits path).at hsites
  rw [htree] at hsites' ⊢
  obtain ⟨himplementation, hinterface⟩ := get?_put_put (mt hsites.apart hfirst) hfirst hsecond
  exact ⟨source, units, hread, hcompile,
    read_eq_ok_iff.mpr ⟨_, hsites'.implementation, himplementation⟩,
    read_eq_ok_iff.mpr ⟨_, hsites'.interface, hinterface⟩⟩

/-! ## Files and directories at a path -/

/-- A path leads to a file. -/
def HoldsFile (t : FileTree) (path : String) : Prop := ∃ content, t.read path = .ok content

/-- A path leads to a directory. -/
def HoldsDirectory (t : FileTree) (path : String) : Prop :=
  ∃ location, t.resolve path = .ok location ∧ t.IsDirectory location

theorem holdsDirectory_iff (hlocation : t.resolve path = .ok location) :
    t.HoldsDirectory path ↔ t.IsDirectory location := by
  simp [HoldsDirectory, hlocation]

theorem holdsFile_iff (hlocation : t.resolve path = .ok location) :
    t.HoldsFile path ↔ ∃ content, t.get? location = some (.file content) := by
  simp [HoldsFile, read_eq_ok_iff, hlocation]

theorem not_holdsFile_of_none
    (hlocation : t.resolve path = .ok location) (hnode : t.get? location = none) :
    ¬ t.HoldsFile path := by
  simp [holdsFile_iff hlocation, hnode]

theorem not_holdsFile_of_isDirectory
    (hlocation : t.resolve path = .ok location) (hdirectory : t.IsDirectory location) :
    ¬ t.HoldsFile path := by
  simp [holdsFile_iff hlocation, hdirectory.get?_eq]

/--
A build changes nothing but its outputs, and does the same when it is repeated.  A source that
cannot be read as text leaves the tree as it is, and after a successful build the outputs hold what
the source compiles to.
-/
theorem build_confined
    (t : FileTree)
    (limits : Limits)
    (path : String)
    (himplementation : Path.implementation path ≠ path)
    (hinterface : Path.interface path ≠ path) :
    (∀ location, ¬ t.IsOutput path location →
      (t.build limits path).2.get? location = t.get? location) ∧
    (t.build limits path).2.home = t.home ∧
    (∀ fault, t.readText path = .error fault → (t.build limits path).2 = t) ∧
    ((t.build limits path).1 = .ok () →
      ∃ source units,
        t.readText path = .ok source ∧
        compile path source (Path.name (Path.interface path)) limits = .ok units ∧
        (t.build limits path).2.read (Path.implementation path) =
          .ok units.implementation.toUTF8 ∧
        (t.build limits path).2.read (Path.interface path) = .ok units.interface.toUTF8) ∧
    (t.build limits path).2.build limits path = t.build limits path := by
  refine ⟨fun location => get?_build_of_not_isOutput, (sameDirectories_build t limits path).home_eq,
    ?_, read_build_of_ok, build_build himplementation hinterface⟩
  intro fault hread
  rw [build_of_unreadable hread]

theorem exists_units_of_map_eq
    {α : Type} {f : Units → α} {a : α} {compiled : Except CompileError Units}
    (h : compiled.map f = .ok a) :
    ∃ units, compiled = .ok units ∧ f units = a := by
  cases compiled with
  | error error => cases h
  | ok units => exact ⟨units, rfl, Except.ok.inj h⟩

theorem exists_units_empty :
    ∃ units,
      compile "/A.Mod" "MODULE A; END A." (Path.name (Path.interface "/A.Mod")) {} = .ok units ∧
      units.implementation.length = 115 :=
  exists_units_of_map_eq (f := fun units => units.implementation.length) (by decide +kernel)

/-- A tree with one source, which is above the working directory. -/
def single : FileTree where
  nodes := [(["A.Mod"], .file "MODULE A; END A.".toUTF8)]
  home := ["work"]

theorem build_confined_single :
    Path.implementation "/A.Mod" ≠ "/A.Mod" ∧
    Path.interface "/A.Mod" ≠ "/A.Mod" ∧
    (single.build {} "/A.Mod").1 = .ok () ∧
    (single.build {} "/A.Mod").2.HoldsFile "/A.c" ∧
    (single.build {} "/A.Mod").2.build {} "/A.Mod" = single.build {} "/A.Mod" := by
  have himplementation : Path.implementation "/A.Mod" ≠ "/A.Mod" := by decide +kernel
  have hinterface : Path.interface "/A.Mod" ≠ "/A.Mod" := by decide +kernel
  have hsource : single.resolve "/A.Mod" = .ok ["A.Mod"] := by decide +kernel
  have hfirst : single.resolve (Path.implementation "/A.Mod") = .ok ["A.c"] := by decide +kernel
  have hsecond : single.resolve (Path.interface "/A.Mod") = .ok ["A.h"] := by decide +kernel
  have hread : single.readText "/A.Mod" = .ok "MODULE A; END A." := readText_of_resolve hsource rfl
  obtain ⟨units, hunits, -⟩ := exists_units_empty
  have hok : (single.build {} "/A.Mod").1 = .ok () := by
    rw [build_of_units hread hunits hfirst hsecond (by decide) (by decide)]
  obtain ⟨-, -, -, hwritten, hagain⟩ :=
    build_confined single {} "/A.Mod" himplementation hinterface
  obtain ⟨_, _, -, -, hfile, -⟩ := hwritten hok
  rw [show Path.implementation "/A.Mod" = "/A.c" by decide +kernel] at hfile
  exact ⟨himplementation, hinterface, hok, ⟨_, hfile⟩, hagain⟩

/-! ## What a failed build leaves -/

theorem settle_tree_of_isDirectory
    {compiled : Except CompileError Units} (hfirst : t.IsDirectory sites.implementation) :
    (t.settle path sites compiled).2 = t := by
  cases compiled <;> simp [settle, hfirst]

/-- A module that does not compile leaves no output, unless its implementation is a directory. -/
theorem not_holdsFile_settle_error
    {error : CompileError}
    (hsites : sites.At t path)
    (hfirst : ¬ t.IsDirectory sites.implementation) :
    ¬ (t.settle path sites (.error error)).2.HoldsFile (Path.implementation path) ∧
      ¬ (t.settle path sites (.error error)).2.HoldsFile (Path.interface path) := by
  have hsites' := (differAt_settle t path sites (.error error)).directories.at hsites
  have hsame : SameDirectories t (t.erase sites.implementation) := sameDirectories_erase hfirst
  by_cases hsecond : t.IsDirectory sites.interface
  · simp only [settle, if_neg hfirst, if_pos hsecond] at hsites' ⊢
    exact ⟨not_holdsFile_of_none hsites'.implementation (get?_erase_self hfirst),
      not_holdsFile_of_isDirectory hsites'.interface (hsame.isDirectory hsecond)⟩
  · have hgone := get?_erase_self (hsame.not_isDirectory hsecond)
    simp only [settle, if_neg hfirst, if_neg hsecond] at hsites' ⊢
    refine ⟨not_holdsFile_of_none hsites'.implementation ?_,
      not_holdsFile_of_none hsites'.interface hgone⟩
    rw [get?_erase_of_ne (mt hsites.apart hfirst), get?_erase_self hfirst]

/-- A module that compiles leaves its implementation even if its interface cannot be written. -/
theorem holdsFile_settle_ok
    {units : Units}
    (hsites : sites.At t path)
    (hfirst : ¬ t.IsDirectory sites.implementation) :
    (t.settle path sites (.ok units)).2.HoldsFile (Path.implementation path) := by
  have hsites' := (differAt_settle t path sites (.ok units)).directories.at hsites
  by_cases hsecond : t.IsDirectory sites.interface
  · simp only [settle, if_neg hfirst, if_pos hsecond] at hsites' ⊢
    exact (holdsFile_iff hsites'.implementation).mpr ⟨_, get?_put_self hfirst⟩
  · simp only [settle, if_neg hfirst, if_neg hsecond] at hsites' ⊢
    have hne : sites.implementation ≠ sites.interface := mt hsites.apart hfirst
    exact (holdsFile_iff hsites'.implementation).mpr ⟨_, (get?_put_put hne hfirst hsecond).1⟩

/--
A build of a source that can be read fails if the module does not compile, and if an output is a
directory.
-/
theorem exists_error_settle_iff {compiled : Except CompileError Units} :
    (∃ error, (t.settle path sites compiled).1 = .error error) ↔
      (∃ fault, compiled = .error fault) ∨
      t.IsDirectory sites.implementation ∨
      t.IsDirectory sites.interface := by
  cases compiled with
  | error fault =>
    refine iff_of_true ?_ (.inl ⟨fault, rfl⟩)
    rw [settle]
    split
    · exact ⟨_, rfl⟩
    · split <;> exact ⟨_, rfl⟩
  | ok units =>
    by_cases hfirst : t.IsDirectory sites.implementation
    · simp [settle, hfirst]
    · by_cases hsecond : t.IsDirectory sites.interface <;> simp [settle, hfirst, hsecond]

/--
A build of a source that can be read fails exactly if the module does not compile or an output is a
directory.  Neither output is a file afterwards exactly if the implementation was a directory and
the interface no file, or the implementation was no directory and the module does not compile.
-/
theorem outputs_gone_iff (limits : Limits) (hread : t.readText path = .ok source) :
    ((∃ error, (t.build limits path).1 = .error error) ↔
      (∃ fault, compile path source (Path.name (Path.interface path)) limits = .error fault) ∨
      t.HoldsDirectory (Path.implementation path) ∨
      t.HoldsDirectory (Path.interface path)) ∧
    ((¬ (t.build limits path).2.HoldsFile (Path.implementation path) ∧
      ¬ (t.build limits path).2.HoldsFile (Path.interface path)) ↔
      (t.HoldsDirectory (Path.implementation path) ∧ ¬ t.HoldsFile (Path.interface path)) ∨
      (¬ t.HoldsDirectory (Path.implementation path) ∧
        ∃ fault,
          compile path source (Path.name (Path.interface path)) limits = .error fault)) := by
  obtain ⟨sites, hsites⟩ := exists_sites_of_readText hread
  rw [build_eq_settle hread hsites, holdsDirectory_iff hsites.implementation,
    holdsDirectory_iff hsites.interface]
  refine ⟨exists_error_settle_iff, ?_⟩
  by_cases hfirst : t.IsDirectory sites.implementation
  · have hfile := not_holdsFile_of_isDirectory hsites.implementation hfirst
    simp [settle_tree_of_isDirectory hfirst, hfirst, hfile]
  · cases compile path source (Path.name (Path.interface path)) limits with
    | error fault => simp [not_holdsFile_settle_error hsites hfirst, hfirst]
    | ok units => simp [holdsFile_settle_ok hsites hfirst, hfirst]

/--
A source that does not compile, a directory in the place of its implementation, and an interface
that an earlier build left, all above the working directory.
-/
def stale : FileTree where
  nodes :=
    [(["A.Mod"], .file "MODULE".toUTF8), (["A.c"], .directory),
      (["A.h"], .file "int A_x;".toUTF8)]
  home := ["work"]

theorem outputs_gone_iff_stale :
    stale.readText "../A.Mod" = .ok "MODULE" ∧
    (∃ error, (stale.build {} "../A.Mod").1 = .error error) ∧
    (stale.build {} "../A.Mod").2.HoldsFile "../A.h" := by
  have hsource : stale.resolve "../A.Mod" = .ok ["A.Mod"] := by decide +kernel
  have hread : stale.readText "../A.Mod" = .ok "MODULE" := readText_of_resolve hsource rfl
  have hfirst : stale.resolve (Path.implementation "../A.Mod") = .ok ["A.c"] := by decide +kernel
  have hsecond : stale.resolve (Path.interface "../A.Mod") = .ok ["A.h"] := by decide +kernel
  have hdirectory : stale.IsDirectory ["A.c"] := rfl
  have hsame : SameDirectories stale (stale.build {} "../A.Mod").2 :=
    sameDirectories_build stale {} "../A.Mod"
  obtain ⟨hfails, hgone⟩ := outputs_gone_iff {} hread
  have hholds := (holdsDirectory_iff hfirst).mpr hdirectory
  refine ⟨hread, hfails.mpr (.inr (.inl hholds)), ?_⟩
  rw [← show Path.interface "../A.Mod" = "../A.h" by decide +kernel]
  by_contra hnone
  have hnone' :=
    not_holdsFile_of_isDirectory (hsame.resolve_eq_ok hfirst) (hsame.isDirectory hdirectory)
  obtain ⟨-, hold⟩ | ⟨hnot, -⟩ := hgone.mp ⟨hnone', hnone⟩
  · exact hold ((holdsFile_iff hsecond).mpr ⟨_, rfl⟩)
  · exact hnot hholds

end FileTree
end Oberon
