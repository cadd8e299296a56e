import Oberon.Proofs.Translation.Module

/-!
# Included modules

A compiled module includes the interfaces of the modules that it imports.  These are the only
modules, besides itself, behind whose names it refers to anything: a member of another module is
written behind that module's own name, also where the source gives it another one.

**Main statement.**  `exists_includes_of_compile`.
-/

namespace Oberon

/-- A module of any kind under its own name. -/
def Symbol.Kind.isModule : Symbol.Kind → Bool
  | .imported => true
  | .thisModule => true
  | _ => false

/--
Of two outlined entries with one name, the first is a module and the second, right behind it, is
another name for it.
-/
theorem Declared.outlined_eq_of_same_name
    {owner : Compilation.Scope.Owner}
    {declared entries : List (String × Symbol.Kind)}
    {i j : Nat}
    {name : String}
    {a b : Symbol.Kind}
    (h : Declared owner declared)
    (hentries : declared.map outlined = entries)
    (hij : i < j)
    (hi : entries[i]? = some (name, a))
    (hj : entries[j]? = some (name, b)) :
    j = i + 1 ∧ a = .imported ∧ b = .aliasOf 0 := by
  rw [← hentries, List.getElem?_map, Option.map_eq_some_iff] at hi hj
  obtain ⟨⟨first, _⟩, hi, hfirst⟩ := hi
  obtain ⟨⟨second, _⟩, hj, hsecond⟩ := hj
  obtain ⟨rfl, rfl⟩ := Prod.mk.inj hfirst
  obtain ⟨rfl, rfl⟩ := Prod.mk.inj hsecond
  obtain ⟨hnext, rfl, rfl⟩ := h.eq_of_same_name hij hi hj
  exact ⟨hnext, rfl, rfl⟩

namespace Grammar

/-! ### Imports -/

/-- The module that an import includes, whatever it is called here. -/
@[simp]
def Import.real? : Import → Option String
  | empty => none
  | module name => some name
  | renamed _ real => some real

theorem Import.real?_of_mem_modules
    {i : Import} {called real : String} (h : (called, real) ∈ i.modules) :
    i.real? = some real := by
  cases i with
  | empty => cases h
  | module name =>
    obtain ⟨-, rfl⟩ := Prod.mk.inj (List.mem_singleton.1 h)
    rfl
  | renamed name target =>
    obtain heq | h := List.mem_cons.1 h
    · obtain ⟨-, rfl⟩ := Prod.mk.inj heq
      rfl
    · obtain ⟨-, rfl⟩ := Prod.mk.inj (List.mem_singleton.1 h)
      rfl

/-- One line for each import, empty ones apart. -/
theorem join_includeLine (imports : List Import) :
    String.join (imports.map Import.includeLine) =
      String.join ((imports.filterMap Import.real?).map
        fun real => Target.includeLine (real ++ ".h")) := by
  induction imports with
  | nil => rfl
  | cons i imports ih =>
    cases i with
    | empty => simp [Import.includeLine, List.filterMap_cons, ih]
    | module name => simp [Import.includeLine, ih]
    | renamed called real => simp [Import.includeLine, ih]

theorem filter_entries (imports : List Import) :
    ((imports.flatMap Import.entries).filter fun entry => entry.2.isModule).map Prod.fst =
      imports.filterMap Import.real? := by
  induction imports with
  | nil => rfl
  | cons i imports ih =>
    rw [List.flatMap_cons, List.filter_append, List.map_append, ih]
    cases i <;> rfl

namespace Module

variable {m : Module} {inner : List (String × Symbol.Kind)}

/-- The imported modules in the order of the source. -/
def imported (m : Module) : List String := m.allImports.filterMap Import.real?

/-- Apart from the module itself, the modules that are known are imported. -/
theorem mem_imported_of_mem_modules {called real : String} (h : (called, real) ∈ m.modules) :
    real = m.name ∨ real ∈ m.imported := by
  obtain heq | h := List.mem_cons.1 h
  · exact Or.inl (Prod.mk.inj heq).2
  · obtain ⟨i, hi, h⟩ := List.mem_flatMap.1 h
    exact Or.inr (List.mem_filterMap.2 ⟨i, hi, Import.real?_of_mem_modules h⟩)

/-- The entries for modules under their own names. -/
theorem filter_isModule (m : Module) :
    (m.entries.filter fun entry => entry.2.isModule).map Prod.fst = m.name :: m.imported := by
  have hitems : (m.items.map Item.entry).filter (fun entry => entry.2.isModule) = [] := by
    rw [List.filter_eq_nil_iff]
    intro entry hentry
    obtain ⟨item, -, rfl⟩ := List.mem_map.1 hentry
    cases item <;> simp [Item.entry, Symbol.Kind.isModule]
  rw [entries, List.cons_append, List.filter_cons_of_pos rfl, List.filter_append, hitems,
    List.append_nil, List.map_cons,
    filter_entries]
  rfl

/-- The imported modules differ from each other and from the module itself. -/
theorem nodup_imported
    (hdeclared : Declared .module inner) (hentries : inner.map outlined = m.entries) :
    (m.name :: m.imported).Nodup := by
  have hpairs : m.entries.Pairwise fun a b => a.1 = b.1 → b.2 = .aliasOf 0 := by
    refine List.pairwise_iff_getElem.2 fun i j hi hj hij hname => ?_
    have hfirst : m.entries[i]? = some (m.entries[j].1, m.entries[i].2) := by
      rw [← hname]
      exact List.getElem?_eq_getElem hi
    exact (hdeclared.outlined_eq_of_same_name hentries hij hfirst (List.getElem?_eq_getElem hj)).2.2
  rw [← filter_isModule]
  refine List.pairwise_map.2 ((hpairs.filter _).imp_of_mem fun _ hb hab hname => ?_)
  have hmodule := (List.mem_filter.1 hb).2
  rw [hab hname] at hmodule
  cases hmodule

/--
Another name for a module is the name of no module, unless the module has its own name as another
one.
-/
theorem eq_of_renamed_mem
    (hdeclared : Declared .module inner)
    (hentries : inner.map outlined = m.entries)
    {called real : String}
    (hrenamed : .renamed called real ∈ m.allImports)
    (hcalled : called ∈ m.name :: m.imported) :
    called = real := by
  obtain ⟨front, back, hsplit⟩ := List.append_of_mem hrenamed
  -- The two entries of the import stand side by side.
  obtain ⟨before, after, hbeside⟩ : ∃ before after,
      m.entries = before ++ (real, .imported) :: (called, .aliasOf 0) :: after :=
    ⟨(m.name, .thisModule) :: front.flatMap Import.entries,
      back.flatMap Import.entries ++ m.items.map Item.entry, by
      simp [entries, hsplit, Import.entries]⟩
  rw [← filter_isModule] at hcalled
  obtain ⟨entry, hentry, rfl⟩ := List.mem_map.1 hcalled
  obtain ⟨hentry, hmodule⟩ := List.mem_filter.1 hentry
  obtain ⟨i, hi⟩ := List.mem_iff_getElem?.1 hentry
  have hreal : m.entries[before.length]? = some (real, .imported) := by simp [hbeside]
  have halias : m.entries[before.length + 1]? = some (entry.1, .aliasOf 0) := by simp [hbeside]
  obtain hlt | rfl | hlt := Nat.lt_trichotomy i (before.length + 1)
  · obtain ⟨hnext, -, -⟩ := hdeclared.outlined_eq_of_same_name hentries hlt hi halias
    obtain rfl : before.length = i := Nat.succ.inj hnext
    exact congrArg Prod.fst (Option.some.inj (hi.symm.trans hreal))
  · rw [Option.some.inj (hi.symm.trans halias)] at hmodule
    cases hmodule
  · obtain ⟨-, hkind, -⟩ := hdeclared.outlined_eq_of_same_name hentries hlt halias hi
    cases hkind

end Module

end Grammar

open Grammar in
/--
The implementation of a compiled module begins with the interfaces of the modules that it imports,
in the order of the source and each under the name that the module has itself, and with its own
interface as `header`.  The modules differ from each other and from the one that is compiled.  A
type, an array size or a designator that stands behind the name of another module stands behind the
name of one of these.  None of the names is given to a module as another name, unless it is that
module's own.
-/
theorem exists_includes_of_compile
    {name source header : String}
    {limits : Limits}
    {units : Units}
    (h : compile name source header limits = .ok units) :
    ∃ (m : Module) (rest : String),
      m.SpelledBy source ∧
      units = ⟨m.implementation header, m.interface⟩ ∧
      units.implementation =
        String.join (m.imported.map fun real => "#include \"" ++ real ++ ".h\"\n") ++
          "#include \"" ++ header ++ "\"\n" ++ "\n" ++ rest ∧
      m.imported.Nodup ∧
      m.name ∉ m.imported ∧
      (∀ called real, .renamed called real ∈ m.allImports → called ∈ m.imported → called = real) ∧
      (∀ q ∈ m.types.flatMap TypeExpression.members,
        q.module = m.name ∨ q.module ∈ m.imported ∧ (q.called, q.module) ∈ m.modules) ∧
      ∀ b ∈ m.blocks,
        ∀ name,
          b.around.owner name = m.name ∨
          b.around.owner name ∈ m.imported ∧
          ∃ called own, name = .member called own ∧ (called, b.around.owner name) ∈ m.modules := by
  obtain ⟨m, start, final, hspelled, hstart, hperform, rfl, houtline, haround⟩ :=
    Compilation.exists_referring_compiled h
  obtain ⟨inner, hdeclared, hentries⟩ :=
    Compilation.exists_declared_of_perform hstart hperform houtline
  obtain ⟨hother, hdistinct⟩ := List.nodup_cons.1 (Module.nodup_imported hdeclared hentries)
  refine ⟨m, String.join (m.items.map (Item.definition m.name)) ++ Target.initializerHead m.name ++
    blockText m.block ++ "\x7d\n",
    hspelled, rfl, ?_, hdistinct, hother, ?_, ?_, ?_⟩
  · rw [Module.implementation, join_includeLine]
    simp [Target.includeLine, Module.imported, String.append_assoc]
  · intro called real hrenamed hcalled
    exact Module.eq_of_renamed_mem hdeclared hentries hrenamed (List.mem_cons_of_mem _ hcalled)
  · intro q hq
    have hknown : (q.called, q.module) ∈ m.modules := hspelled.modules _ (List.mem_map_of_mem hq)
    exact (Module.mem_imported_of_mem_modules hknown).imp_right fun himported => ⟨himported, hknown⟩
  · intro b hb name
    obtain howned | ⟨called, own, hname, hknown⟩ := (haround b hb).2 name
    · exact Or.inl howned
    · exact (Module.mem_imported_of_mem_modules hknown).imp_right fun himported =>
        ⟨himported, called, own, hname, hknown⟩

open Grammar in
/-- A module under another name, with a type of it, an array size of a second module and a call. -/
theorem exists_includes_of_renamed :
    ∃ (units : Units) (m : Module),
      compile "M" "MODULE M;IMPORT A:=B,C;VAR x:ARRAY C.n OF A.T;BEGIN A.f END M." "M.h" {} =
        .ok units ∧
      units.implementation =
        "#include \"B.h\"\n#include \"C.h\"\n#include \"M.h\"\n\n" ++ "static B_T M_x[C_n];\n" ++
          Target.initializerHead "M" ++ "B_f();\n\x7d\n" ∧
      m.SpelledBy "MODULE M;IMPORT A:=B,C;VAR x:ARRAY C.n OF A.T;BEGIN A.f END M." ∧
      m.imported.Nodup ∧
      m.name ∉ m.imported ∧
      ∀ q ∈ m.types.flatMap TypeExpression.members, q.module = m.name ∨ q.module ∈ m.imported := by
  have hcompiled : Option.map Units.implementation
      (compile "M" "MODULE M;IMPORT A:=B,C;VAR x:ARRAY C.n OF A.T;BEGIN A.f END M." "M.h"
        {}).toOption =
      some ("#include \"B.h\"\n#include \"C.h\"\n#include \"M.h\"\n\n" ++
        "static B_T M_x[C_n];\n" ++ Target.initializerHead "M" ++ "B_f();\n\x7d\n") := by
    decide +kernel
  obtain ⟨units, hunits, himplementation⟩ := Option.map_eq_some_iff.1 hcompiled
  rw [toOption_eq_some_iff] at hunits
  obtain ⟨m, -, hspelled, -, -, hdistinct, hother, -, hmembers, -⟩ :=
    exists_includes_of_compile hunits
  exact ⟨units, m, hunits, himplementation, hspelled, hdistinct, hother,
    fun q hq => (hmembers q hq).imp_right And.left⟩

end Oberon
