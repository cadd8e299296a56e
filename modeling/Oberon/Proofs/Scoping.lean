import Oberon.Proofs.Asking
import Oberon.Proofs.Lookup
import Oberon.Proofs.Passage

/-!
# Scopes in good order

A symbol table has three layers: the reserved words, the names of the module, and the names of the
procedure that is being compiled.  `Declared` says how the two layers of names grow: by names that
are new in their layer and not reserved, or by an import under another name, which brings two names
at once.

`State.Scoped owner outer inner` says that a state stands in a scope with the entries `inner`,
around which lie the entries `outer`.  Actions that declare nothing leave all three as they are
(`honors_steady`).
-/

namespace Oberon

namespace Compilation.Scope.Owner

/-- The kinds of names that a scope declares one at a time. -/
def Declares : Owner → Symbol.Kind → Prop
  | .module, .thisModule => True
  | .module, .imported => True
  | .module, .constant => True
  | .module, .variable _ => True
  | .module, .procedure _ parameters => parameters = []
  | .procedure, .parameter => True
  | .procedure, .variable exported => exported = false
  | _, _ => False

end Compilation.Scope.Owner

open Compilation

/-- The entries of a scope, oldest first. -/
inductive Declared : Scope.Owner → List (String × Symbol.Kind) → Prop
  | nil {owner : Scope.Owner} : Declared owner []
  | add
      {owner : Scope.Owner}
      {declared : List (String × Symbol.Kind)}
      {name : String}
      {kind : Symbol.Kind} :
      Declared owner declared →
      name ∉ declared.map Prod.fst →
      Keyword.ofSpelling? name = none →
      owner.Declares kind →
      Declared owner (declared ++ [(name, kind)])
  | rename {declared : List (String × Symbol.Kind)} {name real : String} :
      Declared .module declared →
      name ∉ declared.map Prod.fst →
      real ∉ declared.map Prod.fst →
      Keyword.ofSpelling? name = none →
      Keyword.ofSpelling? real = none →
      Declared .module (declared ++ [(real, .imported)] ++
        [(name, .aliasOf (reservedEntries.length + declared.length))])

namespace Declared

variable {owner : Scope.Owner} {declared : List (String × Symbol.Kind)}

/-- Besides the kinds that a scope declares one at a time, a module has aliases. -/
theorem declares (h : Declared owner declared) :
    ∀ entry ∈ declared,
      owner.Declares entry.2 ∨ owner = .module ∧ ∃ target, entry.2 = .aliasOf target := by
  induction h with
  | nil => simp
  | add _ _ _ hkind ih =>
    intro entry hentry
    obtain hentry | hentry := List.mem_append.1 hentry
    · exact ih entry hentry
    · rw [List.mem_singleton.1 hentry]
      exact Or.inl hkind
  | rename _ _ _ _ _ ih =>
    intro entry hentry
    simp only [List.mem_append, List.mem_singleton] at hentry
    obtain (hentry | rfl) | rfl := hentry
    · exact ih entry hentry
    · exact Or.inl trivial
    · exact Or.inr ⟨rfl, _, rfl⟩

theorem ofSpelling?_eq_none (h : Declared owner declared) :
    ∀ entry ∈ declared, Keyword.ofSpelling? entry.1 = none := by
  induction h with
  | nil => simp
  | add _ _ hname _ ih =>
    intro entry hentry
    obtain hentry | hentry := List.mem_append.1 hentry
    · exact ih entry hentry
    · rwa [List.mem_singleton.1 hentry]
  | rename _ _ _ hname hreal ih =>
    intro entry hentry
    simp only [List.mem_append, List.mem_singleton] at hentry
    obtain (hentry | rfl) | rfl := hentry
    · exact ih entry hentry
    · exact hreal
    · exact hname

theorem unreserved
    (h : Declared owner declared)
    {entry : String × Symbol.Kind}
    (hentry : entry ∈ declared) :
    Unreserved entry := by
  refine ⟨h.ofSpelling?_eq_none entry hentry, fun word hword => ?_⟩
  obtain hkind | ⟨-, target, hkind⟩ := h.declares entry hentry
  · rw [hword] at hkind
    cases owner <;> exact hkind
  · rw [hword] at hkind
    cases hkind

/-- Another name stands right behind the module that it is for. -/
theorem alias_spec
    {index target : Nat}
    {name : String}
    (h : Declared owner declared)
    (hindex : declared[index]? = some (name, .aliasOf target)) :
    ∃ (before : Nat) (real : String),
      index = before + 1 ∧
      target = reservedEntries.length + before ∧
      declared[before]? = some (real, .imported) := by
  induction h with
  | nil => simp at hindex
  | @add owner declared _ kind _ _ _ hkind ih =>
    rw [List.getElem?_append] at hindex
    split at hindex
    · obtain ⟨before, real, rfl, rfl, hbefore⟩ := ih hindex
      exact ⟨before, real, rfl, rfl, by rw [List.getElem?_append_left (by omega), hbefore]⟩
    · obtain ⟨-, rfl⟩ := Prod.mk.inj (List.mem_singleton.1 (List.mem_of_getElem? hindex))
      cases owner <;> exact hkind.elim
  | @rename declared _ real _ _ _ _ _ ih =>
    rw [List.append_assoc] at hindex ⊢
    rw [List.getElem?_append] at hindex
    split at hindex
    · obtain ⟨before, real, rfl, rfl, hbefore⟩ := ih hindex
      exact ⟨before, real, rfl, rfl, by rw [List.getElem?_append_left (by omega), hbefore]⟩
    · rename_i hge
      obtain ⟨offset, rfl⟩ := Nat.exists_eq_add_of_le (Nat.le_of_not_lt hge)
      rw [Nat.add_sub_cancel_left] at hindex
      match offset, hindex with
      | 0, hindex => simp at hindex
      | 1, hindex =>
        simp only [List.singleton_append, List.getElem?_cons_succ, List.getElem?_cons_zero,
          Option.some.injEq, Prod.mk.injEq, Symbol.Kind.aliasOf.injEq] at hindex
        exact ⟨declared.length, real, rfl, hindex.2.symm, by simp⟩
      | offset + 2, hindex => simp at hindex

/-- A name is declared twice only as a module together with its other name. -/
theorem eq_of_same_name
    {i j : Nat} {name : String} {a b : Symbol.Kind} (h : Declared owner declared) (hij : i < j)
    (hi : declared[i]? = some (name, a)) (hj : declared[j]? = some (name, b)) :
    j = i + 1 ∧ a = .imported ∧ b = .aliasOf (reservedEntries.length + i) := by
  have hmem : ∀ {l : List (String × Symbol.Kind)} {k : Nat} {c : Symbol.Kind},
      l[k]? = some (name, c) → name ∈ l.map Prod.fst :=
    fun hk => List.mem_map_of_mem (f := Prod.fst) (List.mem_of_getElem? hk)
  induction h with
  | nil => simp at hi
  | @add owner declared new kind _ hnew _ _ ih =>
    have hlast := (List.getElem?_eq_some_iff.1 hj).1
    rw [List.length_append, List.length_singleton] at hlast
    rw [List.getElem?_append_left (by omega)] at hi
    rw [List.getElem?_append] at hj
    split at hj
    · exact ih hi hj
    · obtain ⟨rfl, -⟩ := Prod.mk.inj (List.mem_singleton.1 (List.mem_of_getElem? hj))
      exact absurd (hmem hi) hnew
  | @rename declared new real _ hnew hreal _ _ ih =>
    have hlast := (List.getElem?_eq_some_iff.1 hj).1
    rw [List.append_assoc] at hi hj
    simp only [List.length_append, List.length_singleton] at hlast
    rw [List.getElem?_append] at hi hj
    split at hi
    · split at hj
      · exact ih hi hj
      · -- An older name has none of the two new ones.
        obtain heq | heq := List.mem_pair.1 (List.mem_of_getElem? hj)
        · exact absurd (hmem hi) ((Prod.mk.inj heq).1 ▸ hreal)
        · exact absurd (hmem hi) ((Prod.mk.inj heq).1 ▸ hnew)
    · obtain rfl : i = declared.length := by omega
      obtain rfl : j = declared.length + 1 := by omega
      simp_all

end Declared

/-! ### Layers -/

/--
The entries around a scope: the reserved words, and around the scope of a procedure also the names
of the module.
-/
def Encloses : Scope.Owner → List (String × Symbol.Kind) → Prop
  | .module, outer => outer = reservedEntries
  | .procedure, outer => ∃ declared, outer = reservedEntries ++ declared ∧ Declared .module declared

/-- The reserved words, the names of the module, and the names of a procedure. -/
theorem Encloses.layers
    {owner : Scope.Owner}
    {outer inner : List (String × Symbol.Kind)}
    (houter : Encloses owner outer)
    (hinner : Declared owner inner) :
    ∃ declared locals,
      outer ++ inner = reservedEntries ++ (declared ++ locals) ∧
      Declared .module declared ∧
      Declared .procedure locals := by
  cases owner with
  | module =>
    obtain rfl := houter
    exact ⟨inner, [], by simp, hinner, .nil⟩
  | procedure =>
    obtain ⟨declared, rfl, hdeclared⟩ := houter
    exact ⟨declared, inner, by simp, hdeclared, hinner⟩

/-- A token that is read as an identifier is no reserved word. -/
def Token.Classified (t : Token) : Prop :=
  t.kind = .identifier → Keyword.ofSpelling? t.lexeme = none

theorem Token.classified_classify (t : Token) : (t.classify Keyword.ofSpelling?).Classified := by
  intro hkind
  unfold classify at hkind ⊢
  split at hkind
  · rename_i hidentifier
    rw [if_pos hidentifier]
    cases hword : Keyword.ofSpelling? t.lexeme with
    | none => simpa [reserve] using hword
    | some word =>
      rw [hword] at hkind
      cases word <;> cases hkind
  · contradiction

theorem Cursor.classified_of_next_reserved
    {c next : Cursor} {t : Token} (h : c.next .reserved = .ok t next) :
    t.Classified := by
  rw [next_reserved] at h
  split at h
  · cases h
  · cases h
    exact Token.classified_classify _

theorem Cursor.next_reserved_ne_fault {c next : Cursor} {fault : Fault} :
    c.next .reserved ≠ .error (.fault fault) next := by
  rw [next_reserved]
  split <;> nofun

namespace Compilation

/-- A state in a scope with the entries `inner` and around it the entries `outer`. -/
structure State.Scoped
    (s : State) (owner : Scope.Owner) (outer inner : List (String × Symbol.Kind)) :
    Prop where
  token : s.token.Classified
  symbols : s.symbols.Shows Symbol.Kind.bare (outer ++ inner)
  encloses : Encloses owner outer
  declared : Declared owner inner
  owner : s.scope.owner = owner
  floor : s.scope.floor = outer.length
  result : s.scope.owner = .module → s.scope.result = .unknown

/-- A state in some scope in good order. -/
def State.Orderly (s : State) : Prop :=
  ∃ owner outer inner, s.Scoped owner outer inner

namespace State.Scoped

variable {s t : State} {owner : Scope.Owner} {outer inner : List (String × Symbol.Kind)}

theorem of_eq
    (h : s.Scoped owner outer inner) (htoken : t.token = s.token) (hsymbols : t.symbols = s.symbols)
    (hscope : t.scope = s.scope) : t.Scoped owner outer inner :=
  ⟨htoken ▸ h.token, hsymbols ▸ h.symbols, h.encloses, h.declared, hscope ▸ h.owner,
    hscope ▸ h.floor, hscope ▸ h.result⟩

/-- What is open outside of procedures is the scope of the module. -/
theorem scope_eq (h : s.Scoped .module outer inner) : s.scope = .ofModule s.scope.floor := by
  have howner := h.owner
  have hresult := h.result howner
  cases hscope : s.scope with
  | mk owner floor result =>
    rw [hscope] at howner hresult
    simp only at howner hresult
    rw [howner, hresult]
    rfl

theorem size_eq (h : s.Scoped owner outer inner) : s.symbols.size = (outer ++ inner).length :=
  h.symbols.size_eq

/-- The entries of a scope and those around it are determined by the state. -/
theorem unique
    {owner' : Scope.Owner}
    {outer' inner' : List (String × Symbol.Kind)}
    (h : s.Scoped owner outer inner)
    (h' : s.Scoped owner' outer' inner') :
    owner' = owner ∧ outer' = outer ∧ inner' = inner :=
  ⟨h'.owner.symm.trans h.owner,
    List.append_inj (h'.symbols.unique h.symbols) (h'.floor.symm.trans h.floor)⟩

/-- Behind the reserved words there are only entries that are not reserved. -/
theorem exists_unreserved (h : s.Scoped owner outer inner) :
    ∃ others,
      s.symbols.Shows Symbol.Kind.bare (reservedEntries ++ others) ∧
      ∀ entry ∈ others, Unreserved entry := by
  obtain ⟨declared, locals, heq, hdeclared, hlocals⟩ := h.encloses.layers h.declared
  refine ⟨declared ++ locals, heq ▸ h.symbols, fun entry hentry => ?_⟩
  obtain hentry | hentry := List.mem_append.1 hentry
  · exact hdeclared.unreserved hentry
  · exact hlocals.unreserved hentry

theorem keyword?_eq (h : s.Scoped owner outer inner) (wanted : String) :
    s.symbols.keyword? wanted = .ok (Keyword.ofSpelling? wanted) := by
  obtain ⟨others, hsymbols, hothers⟩ := h.exists_unreserved
  exact hsymbols.keyword?_eq hothers wanted

theorem next_eq (h : s.Scoped owner outer inner) (c : Cursor) :
    c.next s.symbols = c.next .reserved := by
  obtain ⟨others, hsymbols, hothers⟩ := h.exists_unreserved
  exact hsymbols.next_eq hothers c

/-- What an alias stands for is the imported module right in front of it. -/
theorem alias_spec
    {index target : Nat} {name : String} (h : s.Scoped owner outer inner)
    (hindex : (outer ++ inner)[index]? = some (name, .aliasOf target)) :
    index = target + 1 ∧ ∃ real, (outer ++ inner)[target]? = some (real, .imported) := by
  obtain ⟨declared, locals, heq, hdeclared, hlocals⟩ := h.encloses.layers h.declared
  rw [heq] at hindex ⊢
  rw [List.getElem?_append] at hindex
  split at hindex
  · obtain ⟨word, hword⟩ := reservedEntries_spec (List.mem_of_getElem? hindex)
    cases hword
  · rename_i hreserved
    rw [List.getElem?_append] at hindex
    split at hindex
    · obtain ⟨before, real, hbefore, rfl, hreal⟩ := hdeclared.alias_spec hindex
      have hlt := (List.getElem?_eq_some_iff.1 hreal).1
      refine ⟨by omega, real, ?_⟩
      rw [List.getElem?_append_right (by omega), Nat.add_sub_cancel_left,
        List.getElem?_append_left hlt, hreal]
    · -- A procedure declares no aliases.
      obtain hkind | ⟨hmodule, -⟩ := hlocals.declares _ (List.mem_of_getElem? hindex)
      · exact hkind.elim
      · cases hmodule

end State.Scoped

end Compilation
end Oberon
