import Oberon.Proofs.Safety

/-!
# Distinct names

A scope declares no name twice, with one exception: the import `A := A` declares the module and its
other name, both of which are `A`.  Every declaration looks first whether its name is new in the
innermost scope, and is rejected if it is not.

**Main statement.**  `names_distinct`.
-/

namespace Oberon

/-- An imported module with its other name right behind it. -/
def SymbolTable.Renames (t : SymbolTable) (i j : Nat) : Prop :=
  j = i + 1 ∧ (∃ module, t.get i = .ok module ∧ module.kind = .imported) ∧
    ∃ other, t.get j = .ok other ∧ other.kind = .aliasOf i

/-- A procedure declares no name twice. -/
theorem Declared.ne_of_procedure
    {declared : List (String × Symbol.Kind)} {i j : Nat} {name name' : String} {a b : Symbol.Kind}
    (h : Declared .procedure declared) (hij : i < j) (hi : declared[i]? = some (name, a))
    (hj : declared[j]? = some (name', b)) : name ≠ name' := by
  rintro rfl
  obtain ⟨-, -, rfl⟩ := h.eq_of_same_name hij hi hj
  obtain hkind | ⟨hmodule, -⟩ := h.declares _ (List.mem_of_getElem? hj)
  · exact hkind
  · cases hmodule

/-- A name stands for one thing, imported modules apart. -/
theorem Declared.kind_eq_of_same_name
    {owner : Compilation.Scope.Owner}
    {declared : List (String × Symbol.Kind)}
    {name : String}
    {a b : Symbol.Kind}
    (h : Declared owner declared)
    (ha : (name, a) ∈ declared)
    (hb : (name, b) ∈ declared)
    (haKind : a ≠ .imported)
    (hbKind : b ≠ .imported) :
    a = b := by
  obtain ⟨i, hi⟩ := List.mem_iff_getElem?.1 ha
  obtain ⟨j, hj⟩ := List.mem_iff_getElem?.1 hb
  obtain hij | rfl | hji := Nat.lt_trichotomy i j
  · exact absurd (h.eq_of_same_name hij hi hj).2.1 haKind
  · rw [hi, Option.some.injEq, Prod.mk.injEq] at hj
    exact hj.2
  · exact absurd (h.eq_of_same_name hji hj hi).2.1 hbKind

/-- A module declares a name twice only as a module together with its other name. -/
theorem SymbolTable.Shows.renames
    {t : SymbolTable}
    {declared above : List (String × Symbol.Kind)}
    {i j : Nat}
    {name : String}
    {a b : Symbol.Kind}
    (h : t.Shows Symbol.Kind.bare (reservedEntries ++ (declared ++ above)))
    (hdeclared : Declared .module declared)
    (hlow : reservedEntries.length ≤ i)
    (hij : i < j)
    (hhigh : j < reservedEntries.length + declared.length)
    (hi : (reservedEntries ++ (declared ++ above))[i]? = some (name, a))
    (hj : (reservedEntries ++ (declared ++ above))[j]? = some (name, b)) :
    t.Renames i j := by
  obtain ⟨module, hmodule, hmoduleKind⟩ := h.exists_get hi
  obtain ⟨other, hother, hotherKind⟩ := h.exists_get hj
  rw [List.getElem?_append_right (by omega), List.getElem?_append_left (by omega)] at hi hj
  obtain ⟨hnext, rfl, rfl⟩ := hdeclared.eq_of_same_name (by omega) hi hj
  refine ⟨by omega, ⟨module, hmodule, ?_⟩, other, hother, ?_⟩
  · cases hcase : module.kind <;> rw [hcase] at hmoduleKind <;> cases hmoduleKind
  · have hindex : reservedEntries.length + (i - reservedEntries.length) = i := by omega
    rw [hindex] at hotherKind
    cases hcase : other.kind <;> rw [hcase] at hotherKind <;> cases hotherKind
    rfl

namespace Compilation

open Oberon.Compilation.Action

/-! ### Names of the innermost scope -/

/-- The innermost scope has declared the name. -/
def State.Declares (s : State) (name : String) : Prop :=
  ∃ index, s.scope.floor ≤ index ∧ s.symbols.name index = .ok name

/--
No two names of the innermost scope are equal, nor are two of the module around it, renamed modules
apart.
-/
structure State.Distinct (s : State) : Prop where
  innermost : ∀ {i j : Nat} {name : String}, s.scope.floor ≤ i → i < j →
    s.symbols.name i = .ok name →
    s.symbols.name j = .ok name → s.scope.owner = .module ∧ s.symbols.Renames i j
  around : ∀ {i j : Nat} {name : String}, Keyword.all.length ≤ i → i < j → j < s.scope.floor →
    s.symbols.name i = .ok name →
    s.symbols.name j = .ok name → s.symbols.Renames i j

section Scoped

variable
  {s t : State} {owner : Scope.Owner} {outer inner : List (String × Symbol.Kind)} {name : String}
  {depth : Nat}

/-- The names of a table are those that it shows. -/
theorem State.Scoped.name_eq_ok_iff (h : s.Scoped owner outer inner) {index : Nat} :
    s.symbols.name index = .ok name ↔ ∃ kind, (outer ++ inner)[index]? = some (name, kind) := by
  constructor
  · intro hname
    have hlt : index < (outer ++ inner).length := by
      rw [← h.size_eq]
      by_contra hge
      have hnone : s.symbols.entries[index]? = none := Array.getElem?_eq_none (Nat.le_of_not_lt hge)
      simp [SymbolTable.name, hnone] at hname
    obtain ⟨⟨found, kind⟩, hindex⟩ : ∃ entry, (outer ++ inner)[index]? = some entry :=
      ⟨_, List.getElem?_eq_getElem hlt⟩
    rw [h.symbols.name_eq hindex, Except.ok.injEq] at hname
    exact ⟨kind, by rw [hindex, hname]⟩
  · rintro ⟨kind, hindex⟩
    exact h.symbols.name_eq hindex

theorem State.Scoped.declares_iff (h : s.Scoped owner outer inner) :
    s.Declares name ↔ name ∈ inner.map Prod.fst := by
  constructor
  · rintro ⟨index, hfloor, hname⟩
    obtain ⟨kind, hindex⟩ := h.name_eq_ok_iff.1 hname
    rw [h.floor] at hfloor
    rw [List.getElem?_append_right hfloor] at hindex
    exact List.mem_map_of_mem (f := Prod.fst) (List.mem_of_getElem? hindex)
  · intro hmem
    obtain ⟨⟨_, kind⟩, hentry, rfl⟩ := List.mem_map.1 hmem
    obtain ⟨k, hk⟩ := List.mem_iff_getElem?.1 hentry
    refine ⟨outer.length + k, by rw [h.floor]; omega, h.name_eq_ok_iff.2 ⟨kind, ?_⟩⟩
    rw [List.getElem?_append_right (by omega), Nat.add_sub_cancel_left, hk]

/-- A name that the innermost scope has declared is rejected. -/
theorem State.Scoped.halts_requireFresh
    (h : s.Scoped owner outer inner) (hdeclares : s.Declares name) :
    (requireFresh name).Halts depth s (.rejected (.duplicate name)) s := by
  obtain ⟨found, hfind, hnewest⟩ := h.symbols.exists_find name
  have hgives : (find name).Gives depth s found s := (gives_find name found).2 ⟨hfind, rfl⟩
  obtain ⟨index, hfloor, hname⟩ := hdeclares
  obtain ⟨kind, hindex⟩ := h.name_eq_ok_iff.1 hname
  refine (halts_bind_iff _ _).2 (Or.inr ⟨found, s, hgives, ?_⟩)
  cases found with
  | none => exact absurd rfl (hnewest _ (List.mem_of_getElem? hindex))
  | some newest =>
    have hle : s.scope.floor ≤ newest := by
      by_contra hlt
      exact hnewest.2 index _ (by omega) hindex rfl
    refine (halts_bind_iff _ _).2 (Or.inr ⟨s.scope, s, (gives_scope _).2 ⟨rfl, rfl⟩, ?_⟩)
    rw [if_pos hle]
    rfl

/-- Any other name is accepted, whatever the scopes around have declared. -/
theorem State.Scoped.gives_requireFresh
    (h : s.Scoped owner outer inner) (hdeclares : ¬ s.Declares name) :
    (requireFresh name).Gives depth s () s := by
  obtain ⟨found, hfind, hnewest⟩ := h.symbols.exists_find name
  have hgives : (find name).Gives depth s found s := (gives_find name found).2 ⟨hfind, rfl⟩
  refine (gives_bind _ _ _).2 ⟨found, s, hgives, ?_⟩
  cases found with
  | none => exact (gives_pure _ _).2 ⟨rfl, rfl⟩
  | some newest =>
    obtain ⟨kind, hindex⟩ := hnewest.1
    have hlt : ¬ s.scope.floor ≤ newest :=
      fun hle => hdeclares ⟨newest, hle, h.name_eq_ok_iff.2 ⟨kind, hindex⟩⟩
    refine (gives_bind _ _ _).2 ⟨s.scope, s, (gives_scope _).2 ⟨rfl, rfl⟩, ?_⟩
    rw [if_neg hlt]
    exact (gives_pure _ _).2 ⟨rfl, rfl⟩

/-- Two entries of the innermost scope with one name. -/
theorem State.Scoped.renames_of_floor_le
    (h : s.Scoped owner outer inner)
    {i j : Nat}
    (hi : s.scope.floor ≤ i)
    (hij : i < j)
    (hname : s.symbols.name i = .ok name)
    (hname' : s.symbols.name j = .ok name) :
    s.scope.owner = .module ∧ s.symbols.Renames i j := by
  obtain ⟨a, ha⟩ := h.name_eq_ok_iff.1 hname
  obtain ⟨b, hb⟩ := h.name_eq_ok_iff.1 hname'
  have hlt := (List.getElem?_eq_some_iff.1 hb).1
  rw [h.floor] at hi
  rw [List.length_append] at hlt
  cases owner with
  | module =>
    have hsymbols := h.symbols
    obtain rfl : outer = reservedEntries := h.encloses
    rw [← List.append_nil inner] at hsymbols ha hb
    exact ⟨h.owner, hsymbols.renames h.declared hi hij hlt ha hb⟩
  | procedure =>
    rw [List.getElem?_append_right (by omega)] at ha hb
    exact absurd rfl (h.declared.ne_of_procedure (by omega) ha hb)

/-- Two entries of the module around a procedure with one name. -/
theorem State.Scoped.renames_of_lt_floor
    (h : s.Scoped owner outer inner)
    {i j : Nat}
    (hi : Keyword.all.length ≤ i)
    (hij : i < j)
    (hj : j < s.scope.floor)
    (hname : s.symbols.name i = .ok name)
    (hname' : s.symbols.name j = .ok name) :
    s.symbols.Renames i j := by
  obtain ⟨a, ha⟩ := h.name_eq_ok_iff.1 hname
  obtain ⟨b, hb⟩ := h.name_eq_ok_iff.1 hname'
  have hreserved : reservedEntries.length ≤ i := hi
  rw [h.floor] at hj
  cases owner with
  | module =>
    obtain rfl : outer = reservedEntries := h.encloses
    omega
  | procedure =>
    have hsymbols := h.symbols
    obtain ⟨declared, rfl, hdeclared⟩ := h.encloses
    rw [List.append_assoc] at hsymbols ha hb
    rw [List.length_append] at hj
    exact hsymbols.renames hdeclared hreserved hij hj ha hb

theorem State.Scoped.distinct (h : s.Scoped owner outer inner) : s.Distinct :=
  ⟨h.renames_of_floor_le, h.renames_of_lt_floor⟩

end Scoped

/-! ### Declarations -/

/-- The places in the grammar where a name is declared in a scope that may have it already. -/
inductive Site
  | moduleImport
  /-- The module behind another name for it. -/
  | renamedImport
  | constantName
  | variableName
  | parameterName
  | procedureName
  deriving DecidableEq, Repr

namespace Site

/-- The declaration. -/
def action : Site → Action Unit
  | moduleImport => importEntry
  | renamedImport => importEntry
  | constantName => constantDeclaration
  | variableName => discard Compilation.variableName
  | parameterName => discard Compilation.parameterName
  | procedureName => procedureDeclaration

/-- What stands in front of the look whether the name is new, with the name as its result. -/
def front : Site → Action String
  | moduleImport => identifier
  | renamedImport => do
    let name ← identifier
    requireFresh name
    expect (.sign .assign)
    identifier
  | constantName => do
    let name ← identifier
    discard (accept (.sign .asterisk))
    expect (.sign .equal)
    discard constantValue
    expect (.sign .semicolon)
    return name
  | variableName => do
    let name ← identifier
    let exported ← accept (.sign .asterisk)
    if exported && decide ((← scope).owner = .procedure) then reject (.exportedLocal name)
    return name
  | parameterName => identifier
  | procedureName => do
    let name ← identifier
    discard (accept (.sign .asterisk))
    return name

instance (site : Site) : MadeOf steadyAtoms site.front := by
  cases site <;> (unfold front; infer_instance)

variable {depth : Nat} {s t : State} {halt : Halt} {name : String}

theorem halts_discard
    {α : Type} {x : Action α} (h : x.Halts depth s halt t) :
    (discard x).Halts depth s halt t := by
  change Halts depth ((fun _ => ()) <$> x) s halt t
  rw [← bind_pure_comp]
  exact (halts_bind_iff _ _).2 (Or.inl h)

/-- A declaration that halts when it looks for its name halts. -/
theorem halts_action
    (site : Site)
    {v : State}
    (hfront : site.front.Gives depth s name v)
    (hcheck : (requireFresh name).Halts depth v halt t) :
    site.action.Halts depth s halt t := by
  have hhere : ∀ {α : Type} {f : Unit → Action α}, Halts depth (requireFresh name >>= f) v halt t :=
    (halts_bind_iff _ _).2 (Or.inl hcheck)
  cases site with
  | moduleImport =>
    have hsees : (sees .identifier).Gives depth s true s := by
      simpa using ((gives_identifier name).1 hfront).1
    exact hsees.halts_bind (hfront.halts_bind hhere)
  | renamedImport =>
    simp only [front, gives_bind] at hfront
    obtain ⟨other, s₁, hother, _, s₂, hfresh, _, s₃, hassign, hreal⟩ := hfront
    have hsees : (sees .identifier).Gives depth s true s := by
      simpa using ((gives_identifier other).1 hother).1
    have haccept : (accept (.sign .assign)).Gives depth s₂ true s₃ := by
      simpa using hassign
    exact hsees.halts_bind
      (hother.halts_bind (hfresh.halts_bind (haccept.halts_bind (hreal.halts_bind hhere))))
  | constantName =>
    simp only [front, gives_bind, gives_discard, gives_pure] at hfront
    obtain ⟨_, s₁, hname, _, s₂, ⟨exported, hmark⟩, _, s₃, hequal, _, s₄, ⟨value, hvalue⟩, _, s₅,
        hsemicolon, rfl, rfl⟩ :=
      hfront
    exact hname.halts_bind
      (hmark.halts_bind (hequal.halts_bind (hvalue.halts_bind (hsemicolon.halts_bind hhere))))
  | variableName =>
    simp only [front, gives_bind] at hfront
    obtain ⟨_, s₁, hname, exported, s₂, hmark, scope, s₃, hscope, hrest⟩ := hfront
    refine halts_discard (hname.halts_bind (hmark.halts_bind (hscope.halts_bind ?_)))
    dsimp only at hrest ⊢
    split at hrest
    · exact absurd hrest (gives_reject _ _)
    · rename_i hlocal
      obtain ⟨rfl, rfl⟩ := (gives_pure _ _).1 hrest
      rw [if_neg hlocal]
      exact hhere
  | parameterName => exact halts_discard (hfront.halts_bind hhere)
  | procedureName =>
    simp only [front, gives_bind, gives_discard, gives_pure] at hfront
    obtain ⟨_, s₁, hname, _, s₂, ⟨exported, hmark⟩, rfl, rfl⟩ := hfront
    exact hname.halts_bind (hmark.halts_bind hhere)

end Site

end Compilation

open Compilation Compilation.Action in
/--
At every moment of a compilation no two entries of the innermost scope have one name, nor do two
entries of the module around a procedure, with the exception of a module that is imported under its
own name.  A declaration whose name the innermost scope has already is rejected as a duplicate; a
name that only the scopes around have declared passes.
-/
theorem names_distinct (source header : String) (limits : Limits) :
    match State.start source limits with
    | .error _ => True
    | .ok start =>
      (∀ moment u, (wholeModule header).Comes (start.remaining + 1) start moment u →
        u.Distinct ∧
        ∀ (site : Site) (depth : Nat) (name : String) (v : State), site.front.Gives depth u name v →
          (u.Declares name → site.action.Halts depth u (.rejected (.duplicate name)) v) ∧
          (¬ u.Declares name → (requireFresh name).Gives depth v () v)) ∧
      (endState ((wholeModule header).perform start)).Distinct := by
  cases hstart : State.start source limits with
  | error halt => trivial
  | ok start =>
    have hscoped := (start_spec hstart).1
    have hhonors := @honors_wholeModule reservedEntries (start.remaining + 1) header
    refine ⟨fun moment u hu => ?_, ?_⟩
    · obtain ⟨⟨owner, outer, inner, hu⟩, -⟩ := hhonors.comes hscoped hu
      refine ⟨hu.distinct, fun site depth name v hfront => ?_⟩
      -- What stands in front of the look declares nothing.
      have hv : v.Scoped owner outer inner :=
        (@honors_steady _ someEntry owner outer inner depth site.front _).gives hu hfront
      have hsame : v.Declares name ↔ u.Declares name := by
        rw [hv.declares_iff, hu.declares_iff]
      exact ⟨fun hdeclares => site.halts_action hfront (hv.halts_requireFresh (hsame.2 hdeclares)),
        fun hdeclares => hv.gives_requireFresh fun h => hdeclares (hsame.1 h)⟩
    · obtain ⟨inner, hend⟩ := inside_endState hhonors hscoped
      exact hend.distinct

end Oberon
