import Oberon.Proofs.Files.Confinement

/-!
# Builds of several sources

A run builds sources one after the other and stops at the first that fails.  What stands behind
that source has no part in the run (`exists_failing_of_buildAll`).

**Separate sources.**  A build depends on the directories and on its source only (`AgreeAt.build`).
If no output of a source is the source or an output of another one, the run succeeds exactly if
each source can be built alone (`buildAll_eq_ok_iff`), and every output is the one of its source
alone (`get?_buildAll_of_isOutput`).  So the order of the sources does not matter
(`buildAll_independent`).

Sources are separate by the locations where paths lead.  Paths that differ as texts are not enough
(`order_matters_twins`).
-/

namespace Oberon
namespace FileTree

variable
  {t u : FileTree} {path : String} {paths : List String} {limits : Limits} {location : Location}

/-- The result of building source files one after the other, and the tree that is left. -/
def buildAll (t : FileTree) (limits : Limits) (paths : List String) :
    Except BuildError Unit × FileTree :=
  t.run (Build.files limits paths)

theorem buildAll_nil (t : FileTree) (limits : Limits) : t.buildAll limits [] = (.ok (), t) := rfl

theorem buildAll_cons_of_ok (h : (t.build limits path).1 = .ok ()) :
    t.buildAll limits (path :: paths) = (t.build limits path).2.buildAll limits paths := by
  have hbuild : t.run (Build.file limits path) = (.ok (), (t.build limits path).2) :=
    Prod.ext h rfl
  rw [buildAll, Build.files, List.forM_eq_forM, List.forM_cons, run_bind_of_ok hbuild]
  rfl

theorem buildAll_cons_of_error {error : BuildError} (h : (t.build limits path).1 = .error error) :
    t.buildAll limits (path :: paths) = t.build limits path := by
  have hbuild : t.run (Build.file limits path) = (.error error, (t.build limits path).2) :=
    Prod.ext h rfl
  rw [buildAll, Build.files, List.forM_eq_forM, List.forM_cons, run_bind_of_error hbuild]
  exact hbuild.symm

theorem ok_or_error (result : Except BuildError Unit) :
    result = .ok () ∨ ∃ error, result = .error error := by
  cases result with
  | ok => exact .inl rfl
  | error error => exact .inr ⟨error, rfl⟩

/-! ## What a run leaves alone -/

theorem SameDirectories.isOutput_iff (hsame : SameDirectories t u) :
    u.IsOutput path location ↔ t.IsOutput path location :=
  or_congr ⟨hsame.symm.resolve_eq_ok, hsame.resolve_eq_ok⟩
    ⟨hsame.symm.resolve_eq_ok, hsame.resolve_eq_ok⟩

theorem get?_buildAll_of_not_isOutput (hlocation : ∀ path ∈ paths, ¬ t.IsOutput path location) :
    (t.buildAll limits paths).2.get? location = t.get? location := by
  induction paths generalizing t with
  | nil => rfl
  | cons path paths ih =>
    obtain ⟨hpath, hpaths⟩ := List.forall_mem_cons.mp hlocation
    have hfirst : (t.build limits path).2.get? location = t.get? location :=
      get?_build_of_not_isOutput hpath
    rcases ok_or_error (t.build limits path).1 with hok | ⟨error, herror⟩
    · have hsame : SameDirectories t (t.build limits path).2 := sameDirectories_build t limits path
      have hrest : ∀ other ∈ paths, ¬ (t.build limits path).2.IsOutput other location :=
        fun other hother => mt hsame.isOutput_iff.mp (hpaths other hother)
      rw [buildAll_cons_of_ok hok, ih hrest, hfirst]
    · rw [buildAll_cons_of_error herror, hfirst]

/-- A run that fails did so at one source, and what stands behind that source has no part in it. -/
theorem exists_failing_of_buildAll
    {error : BuildError} (h : (t.buildAll limits paths).1 = .error error) :
    ∃ before failing after,
      paths = before ++ failing :: after ∧
      (t.buildAll limits before).1 = .ok () ∧
      ((t.buildAll limits before).2.build limits failing).1 = .error error ∧
      ∀ others,
        t.buildAll limits (before ++ failing :: others) =
          (t.buildAll limits before).2.build limits failing := by
  induction paths generalizing t with
  | nil => cases h
  | cons path paths ih =>
    rcases ok_or_error (t.build limits path).1 with hok | ⟨fault, hfault⟩
    · rw [buildAll_cons_of_ok hok] at h
      obtain ⟨before, failing, after, rfl, hbefore, hfailing, hothers⟩ := ih h
      refine ⟨path :: before, failing, after, rfl, ?_⟩
      simp only [List.cons_append, buildAll_cons_of_ok hok]
      exact ⟨hbefore, hfailing, hothers⟩
    · rw [buildAll_cons_of_error hfault] at h
      exact ⟨[], path, paths, rfl, rfl, h, fun others => buildAll_cons_of_error hfault⟩

/-! ## Sources that do not meet -/

/-- Two trees with the same directories and the same source at a path. -/
structure AgreeAt (path : String) (t u : FileTree) : Prop where
  directories : SameDirectories t u
  source : ∀ location, t.resolve path = .ok location → u.get? location = t.get? location

theorem AgreeAt.symm (h : AgreeAt path t u) : AgreeAt path u t where
  directories := h.directories.symm
  source location hlocation :=
    (h.source location (h.directories.symm.resolve_eq_ok hlocation)).symm

theorem agreeAt_build
    {other : String}
    (h : ∀ location, t.IsOutput other location → t.resolve path ≠ .ok location) :
    AgreeAt path t (t.build limits other).2 where
  directories := sameDirectories_build t limits other
  source location hlocation :=
    get?_build_of_not_isOutput fun houtput => h location houtput hlocation

/--
A build that succeeds writes the same outputs in every tree with the same directories and the same
source.
-/
theorem AgreeAt.build (h : AgreeAt path t u) (hok : (t.build limits path).1 = .ok ()) :
    (u.build limits path).1 = .ok () ∧
      ∀ location, t.IsOutput path location →
        (u.build limits path).2.get? location = (t.build limits path).2.get? location := by
  obtain ⟨source, units, sites, hread, hcompile, hsites, hfirst, hsecond, htree⟩ :=
    build_eq_ok hok
  have hsites' : sites.At u path := h.directories.at hsites
  have hfirst' : ¬ u.IsDirectory sites.implementation := h.directories.not_isDirectory hfirst
  have hsecond' : ¬ u.IsDirectory sites.interface := h.directories.not_isDirectory hsecond
  have hnode : u.get? sites.source = t.get? sites.source := h.source sites.source hsites.source
  have hread' : u.readText path = .ok source :=
    (readText_congr hsites.source hsites'.source hnode).trans hread
  have hbuild :=
    build_of_units hread' hcompile hsites'.implementation hsites'.interface hfirst' hsecond'
  refine ⟨by rw [hbuild], fun location hlocation => ?_⟩
  rw [hbuild, htree]
  have hne : sites.implementation ≠ sites.interface := mt hsites.apart hfirst
  obtain ⟨hc, hh⟩ := get?_put_put hne hfirst hsecond
  obtain ⟨hc', hh'⟩ := get?_put_put hne hfirst' hsecond'
  rcases hlocation with hlocation | hlocation
  · obtain rfl : sites.implementation = location :=
      Except.ok.inj (hsites.implementation.symm.trans hlocation)
    exact hc'.trans hc.symm
  · obtain rfl : sites.interface = location :=
      Except.ok.inj (hsites.interface.symm.trans hlocation)
    exact hh'.trans hh.symm

/-- Of two sources that are built one after the other, the second has its outputs in the end. -/
theorem buildAll_pair
    {other : String}
    (hok : (t.build limits path).1 = .ok ())
    (hok' : (t.build limits other).1 = .ok ())
    (hagree : AgreeAt other t (t.build limits path).2) :
    (t.buildAll limits [path, other]).1 = .ok () ∧
      ∀ location, t.IsOutput other location →
        (t.buildAll limits [path, other]).2.get? location =
          (t.build limits other).2.get? location := by
  obtain ⟨hlast, houtputs⟩ := hagree.build hok'
  rw [buildAll_cons_of_ok hok, buildAll_cons_of_ok hlast, buildAll_nil]
  exact ⟨rfl, houtputs⟩

/--
No output of a source is the source or an output of another one, and no source is an output of its
own.
-/
structure Separate (t : FileTree) (paths : List String) : Prop where
  own : ∀ path ∈ paths, Path.implementation path ≠ path ∧ Path.interface path ≠ path
  source : ∀ path ∈ paths, ∀ other ∈ paths, path ≠ other →
    ∀ location, t.IsOutput path location → t.resolve other ≠ .ok location
  output : ∀ path ∈ paths, ∀ other ∈ paths, path ≠ other →
    ∀ location, t.IsOutput path location → ¬ t.IsOutput other location

theorem Separate.of_subset
    {others : List String}
    (h : t.Separate paths)
    (hsubset : ∀ path ∈ others, path ∈ paths) :
    t.Separate others where
  own path hpath := h.own path (hsubset path hpath)
  source path hpath other hother := h.source path (hsubset path hpath) other (hsubset other hother)
  output path hpath other hother := h.output path (hsubset path hpath) other (hsubset other hother)

theorem Separate.of_sameDirectories (h : t.Separate paths) (hsame : SameDirectories t u) :
    u.Separate paths where
  own := h.own
  source path hpath other hother hne location houtput hresolve :=
    h.source path hpath other hother hne location (hsame.isOutput_iff.mp houtput)
      (hsame.symm.resolve_eq_ok hresolve)
  output path hpath other hother hne location houtput houtput' :=
    h.output path hpath other hother hne location (hsame.isOutput_iff.mp houtput)
      (hsame.isOutput_iff.mp houtput')

theorem Separate.tail_build (h : t.Separate (path :: paths)) :
    (t.build limits path).2.Separate paths := by
  have hpaths : t.Separate paths := h.of_subset fun _ => List.mem_cons_of_mem path
  exact hpaths.of_sameDirectories (sameDirectories_build t limits path)

section Separate

variable {other : String}

/-- Building one source first changes nothing for another one. -/
theorem Separate.build_build_eq_ok_iff
    (h : t.Separate paths) (hpath : path ∈ paths) (hother : other ∈ paths) :
    ((t.build limits path).2.build limits other).1 = .ok () ↔
      (t.build limits other).1 = .ok () := by
  by_cases heq : path = other
  · subst heq
    rw [build_build (h.own path hpath).1 (h.own path hpath).2]
  · have hagree : AgreeAt other t (t.build limits path).2 :=
      agreeAt_build (h.source path hpath other hother heq)
    exact ⟨fun hok => (hagree.symm.build hok).1, fun hok => (hagree.build hok).1⟩

theorem Separate.get?_build_build
    (h : t.Separate paths)
    (hpath : path ∈ paths)
    (hother : other ∈ paths)
    (hok : (t.build limits other).1 = .ok ())
    (houtput : t.IsOutput other location) :
    ((t.build limits path).2.build limits other).2.get? location =
      (t.build limits other).2.get? location := by
  by_cases heq : path = other
  · subst heq
    rw [build_build (h.own path hpath).1 (h.own path hpath).2]
  · have hagree : AgreeAt other t (t.build limits path).2 :=
      agreeAt_build (h.source path hpath other hother heq)
    exact (hagree.build hok).2 location houtput

end Separate

/-- A run over separate sources succeeds exactly if each of them can be built alone. -/
theorem buildAll_eq_ok_iff (h : t.Separate paths) :
    (t.buildAll limits paths).1 = .ok () ↔ ∀ path ∈ paths, (t.build limits path).1 = .ok () := by
  induction paths generalizing t with
  | nil => simp [buildAll_nil]
  | cons path paths ih =>
    rw [List.forall_mem_cons]
    rcases ok_or_error (t.build limits path).1 with hok | ⟨error, herror⟩
    · rw [buildAll_cons_of_ok hok, ih h.tail_build, and_iff_right hok]
      refine forall₂_congr fun other hother => ?_
      exact h.build_build_eq_ok_iff List.mem_cons_self (List.mem_cons_of_mem path hother)
    · simp [buildAll_cons_of_error herror, herror]

/--
After a run over separate sources that succeeds every output is the one that its source gives
alone.
-/
theorem get?_buildAll_of_isOutput
    {path : String}
    (h : t.Separate paths)
    (hok : (t.buildAll limits paths).1 = .ok ())
    (hpath : path ∈ paths)
    (houtput : t.IsOutput path location) :
    (t.buildAll limits paths).2.get? location = (t.build limits path).2.get? location := by
  have heach : ∀ path ∈ paths, (t.build limits path).1 = .ok () := (buildAll_eq_ok_iff h).mp hok
  induction paths generalizing t with
  | nil => cases hpath
  | cons first paths ih =>
    have hfirst : (t.build limits first).1 = .ok () := heach first List.mem_cons_self
    have hsame : SameDirectories t (t.build limits first).2 := sameDirectories_build t limits first
    rw [buildAll_cons_of_ok hfirst] at hok ⊢
    by_cases hmem : path ∈ paths
    · have hrest := (buildAll_eq_ok_iff h.tail_build).mp hok
      rw [ih h.tail_build hok hmem (hsame.isOutput_iff.mpr houtput) hrest]
      exact h.get?_build_build List.mem_cons_self hpath (heach path hpath) houtput
    · -- nothing behind the source writes its outputs
      obtain rfl : path = first := (List.mem_cons.mp hpath).resolve_right hmem
      refine get?_buildAll_of_not_isOutput fun other hother => mt hsame.isOutput_iff.mp ?_
      have hne : path ≠ other := fun heq => hmem (heq ▸ hother)
      exact h.output path List.mem_cons_self other (List.mem_cons_of_mem path hother) hne location
        houtput

/--
Sources whose outputs are neither sources nor outputs of one another can be built in any order,
with the same tree in the end, in which every output is the one that its source gives alone.  A run
that fails is the run up to the first source that fails, whatever stands behind it.
-/
theorem buildAll_independent (limits : Limits) (h : t.Separate paths) :
    ((t.buildAll limits paths).1 = .ok () →
      (∀ others : List String, others.Perm paths →
        (t.buildAll limits others).1 = .ok () ∧
        ∀ location,
          (t.buildAll limits others).2.get? location =
            (t.buildAll limits paths).2.get? location) ∧
      ∀ path ∈ paths,
        (t.build limits path).1 = .ok () ∧
        ∀ location, t.IsOutput path location →
          (t.buildAll limits paths).2.get? location = (t.build limits path).2.get? location) ∧
    ∀ error, (t.buildAll limits paths).1 = .error error →
      ∃ before failing after,
        paths = before ++ failing :: after ∧
        (t.buildAll limits before).1 = .ok () ∧
        ((t.buildAll limits before).2.build limits failing).1 = .error error ∧
        (∀ others, t.buildAll limits (before ++ failing :: others) = t.buildAll limits paths) ∧
        ∀ location, (∀ path ∈ before ++ [failing], ¬ t.IsOutput path location) →
          (t.buildAll limits paths).2.get? location = t.get? location := by
  refine ⟨fun hok => ⟨fun others hperm => ?_, fun path hpath => ?_⟩, fun error herror => ?_⟩
  · have hothers : t.Separate others := h.of_subset fun path => hperm.mem_iff.mp
    have heach : ∀ path ∈ paths, (t.build limits path).1 = .ok () :=
      (buildAll_eq_ok_iff h).mp hok
    have hok' : (t.buildAll limits others).1 = .ok () :=
      (buildAll_eq_ok_iff hothers).mpr fun path hpath => heach path (hperm.mem_iff.mp hpath)
    refine ⟨hok', fun location => ?_⟩
    by_cases houtput : ∃ path ∈ paths, t.IsOutput path location
    · obtain ⟨path, hpath, houtput⟩ := houtput
      rw [get?_buildAll_of_isOutput h hok hpath houtput,
        get?_buildAll_of_isOutput hothers hok' (hperm.mem_iff.mpr hpath) houtput]
    · have hnone : ∀ path ∈ paths, ¬ t.IsOutput path location :=
        fun path hpath hout => houtput ⟨path, hpath, hout⟩
      rw [get?_buildAll_of_not_isOutput hnone,
        get?_buildAll_of_not_isOutput fun path hpath => hnone path (hperm.mem_iff.mp hpath)]
  · exact ⟨(buildAll_eq_ok_iff h).mp hok path hpath,
      fun location => get?_buildAll_of_isOutput h hok hpath⟩
  · obtain ⟨before, failing, after, rfl, hbefore, hfailing, hothers⟩ :=
      exists_failing_of_buildAll herror
    refine ⟨before, failing, after, rfl, hbefore, hfailing,
      fun others => (hothers others).trans (hothers after).symm, ?_⟩
    intro location hlocation
    rw [hothers after, ← hothers []]
    exact get?_buildAll_of_not_isOutput hlocation

theorem isOutput_iff_of_resolve
    {first second : Location}
    (hfirst : t.resolve (Path.implementation path) = .ok first)
    (hsecond : t.resolve (Path.interface path) = .ok second) :
    t.IsOutput path location ↔ location = first ∨ location = second := by
  simp [IsOutput, hfirst, hsecond, eq_comm]

/-- A tree with two sources above the working directory. -/
def pair : FileTree where
  nodes :=
    [(["A.Mod"], .file "MODULE A; END A.".toUTF8), (["B.Mod"], .file "MODULE B; END B.".toUTF8)]
  home := ["work"]

theorem buildAll_independent_pair :
    pair.Separate ["/A.Mod", "../B.Mod"] ∧
    (pair.buildAll {} ["/A.Mod", "../B.Mod"]).1 = .ok () ∧
    (pair.buildAll {} ["../B.Mod", "/A.Mod"]).1 = .ok () ∧
    ∀ location,
      (pair.buildAll {} ["../B.Mod", "/A.Mod"]).2.get? location =
        (pair.buildAll {} ["/A.Mod", "../B.Mod"]).2.get? location := by
  have hsourceA : pair.resolve "/A.Mod" = .ok ["A.Mod"] := by decide +kernel
  have hsourceB : pair.resolve "../B.Mod" = .ok ["B.Mod"] := by decide +kernel
  have hfirstA : pair.resolve (Path.implementation "/A.Mod") = .ok ["A.c"] := by decide +kernel
  have hsecondA : pair.resolve (Path.interface "/A.Mod") = .ok ["A.h"] := by decide +kernel
  have hfirstB : pair.resolve (Path.implementation "../B.Mod") = .ok ["B.c"] := by decide +kernel
  have hsecondB : pair.resolve (Path.interface "../B.Mod") = .ok ["B.h"] := by decide +kernel
  obtain ⟨unitsA, hunitsA, -⟩ := exists_units_empty
  have hcompileB : (compile "../B.Mod" "MODULE B; END B."
      (Path.name (Path.interface "../B.Mod")) {}).map (fun _ => true) = .ok true := by
    decide +kernel
  obtain ⟨unitsB, hunitsB, -⟩ := exists_units_of_map_eq hcompileB
  have hseparate : pair.Separate ["/A.Mod", "../B.Mod"] := by
    refine ⟨by decide +kernel, ?_, ?_⟩
    · simp [isOutput_iff_of_resolve hfirstA hsecondA, isOutput_iff_of_resolve hfirstB hsecondB,
        hsourceA, hsourceB]
    · simp [isOutput_iff_of_resolve hfirstA hsecondA, isOutput_iff_of_resolve hfirstB hsecondB]
  have hbuildA := build_of_units (readText_of_resolve hsourceA rfl) hunitsA hfirstA hsecondA
    (by decide) (by decide)
  have hbuildB := build_of_units (readText_of_resolve hsourceB rfl) hunitsB hfirstB hsecondB
    (by decide) (by decide)
  have hok : (pair.buildAll {} ["/A.Mod", "../B.Mod"]).1 = .ok () := by
    rw [buildAll_eq_ok_iff hseparate]
    simp [hbuildA, hbuildB]
  obtain ⟨hperm, -⟩ := (buildAll_independent {} hseparate).1 hok
  obtain ⟨hok', htree⟩ :=
    hperm ["../B.Mod", "/A.Mod"] (List.Perm.swap "/A.Mod" "../B.Mod" [])
  exact ⟨hseparate, hok, hok', htree⟩

/-- A tree with two sources of one stem. -/
def twins : FileTree where
  nodes :=
    [(["A.Mod"], .file "MODULE A; END A.".toUTF8), (["A.Ob"], .file "MODULE AB; END AB.".toUTF8)]

/--
Paths that differ as texts do not keep outputs apart: these two sources have their outputs in the
same files.
-/
theorem order_matters_twins :
    (∀ path ∈ ["A.Mod", "./A.Ob"],
      ∀ output ∈ [Path.implementation path, Path.interface path],
        output ≠ path ∧
        ∀ other ∈ ["A.Mod", "./A.Ob"], path ≠ other →
          output ∉ [other, Path.implementation other, Path.interface other]) ∧
    (twins.buildAll {} ["A.Mod", "./A.Ob"]).1 = .ok () ∧
    (twins.buildAll {} ["./A.Ob", "A.Mod"]).1 = .ok () ∧
    (twins.buildAll {} ["A.Mod", "./A.Ob"]).2.get? ["A.c"] ≠
      (twins.buildAll {} ["./A.Ob", "A.Mod"]).2.get? ["A.c"] := by
  have hsource : twins.resolve "A.Mod" = .ok ["A.Mod"] := by decide +kernel
  have hsource' : twins.resolve "./A.Ob" = .ok ["A.Ob"] := by decide +kernel
  have hfirst : twins.resolve (Path.implementation "A.Mod") = .ok ["A.c"] := by decide +kernel
  have hsecond : twins.resolve (Path.interface "A.Mod") = .ok ["A.h"] := by decide +kernel
  have hfirst' : twins.resolve (Path.implementation "./A.Ob") = .ok ["A.c"] := by decide +kernel
  have hsecond' : twins.resolve (Path.interface "./A.Ob") = .ok ["A.h"] := by decide +kernel
  have hcompile : (compile "A.Mod" "MODULE A; END A." (Path.name (Path.interface "A.Mod")) {}).map
      (fun units => units.implementation.length) = .ok 115 := by
    decide +kernel
  have hcompile' : (compile "./A.Ob" "MODULE AB; END AB."
      (Path.name (Path.interface "./A.Ob")) {}).map
      (fun units => units.implementation.length) = .ok 119 := by
    decide +kernel
  obtain ⟨units, hunits, hlength⟩ := exists_units_of_map_eq hcompile
  obtain ⟨units', hunits', hlength'⟩ := exists_units_of_map_eq hcompile'
  have hbuild := build_of_units (readText_of_resolve hsource rfl) hunits hfirst hsecond
    (by decide) (by decide)
  have hbuild' := build_of_units (readText_of_resolve hsource' rfl) hunits' hfirst' hsecond'
    (by decide) (by decide)
  have hagree : AgreeAt "./A.Ob" twins (twins.build {} "A.Mod").2 := by
    refine agreeAt_build fun location houtput => ?_
    rcases (isOutput_iff_of_resolve hfirst hsecond).mp houtput with rfl | rfl <;> simp [hsource']
  have hagree' : AgreeAt "A.Mod" twins (twins.build {} "./A.Ob").2 := by
    refine agreeAt_build fun location houtput => ?_
    rcases (isOutput_iff_of_resolve hfirst' hsecond').mp houtput with rfl | rfl <;> simp [hsource]
  obtain ⟨hok, htree⟩ := buildAll_pair (by rw [hbuild]) (by rw [hbuild']) hagree
  obtain ⟨hok', htree'⟩ := buildAll_pair (by rw [hbuild']) (by rw [hbuild]) hagree'
  refine ⟨by decide +kernel, hok, hok', ?_⟩
  have hwritten (units : Units) :
      ((twins.put ["A.c"] units.implementation.toUTF8).put ["A.h"] units.interface.toUTF8).get?
        ["A.c"] = some (.file units.implementation.toUTF8) :=
    (get?_put_put (by decide) (by decide) (by decide)).1
  rw [htree ["A.c"] (.inl hfirst'), htree' ["A.c"] (.inl hfirst), hbuild, hbuild', hwritten,
    hwritten]
  intro heq
  have hunits : units'.implementation = units.implementation := by
    simpa [String.toByteArray_inj] using heq
  rw [hunits, hlength] at hlength'
  exact absurd hlength' (by decide)

end FileTree
end Oberon
