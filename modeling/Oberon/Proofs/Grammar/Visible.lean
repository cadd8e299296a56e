import Oberon.Proofs.Grammar.Binding

/-!
# What names stand for in a block

Where the blocks of a checked module stand, which bindings are visible there, and what a name stands
for among them.

**Places.**  `m.Has b bindings returns` says that the block `b` is the one of the module or of one
of its procedures; `bindings` are the bindings in front of its statements, and `returns` is the type
that its procedure returns, if any.  In a checked module the context around the block holds just
these bindings (`Module.Checked.holds`).

**Names.**  A name by itself, or as a member of the module, stands for its newest binding.  Other
members are those of an imported module, of which nothing is known (`Context.Holds.means`).
-/

namespace Oberon

open Entry

/-- Where names are looked up the newest entry is found. -/
theorem SymbolTable.Lists.find_spec
    {t : SymbolTable}
    {entries : List Entry}
    (h : t.Lists entries)
    (wanted : String) :
    (t.find wanted = .ok none ∧ entries.reverse.find? (fun e => e.name == wanted) = none) ∨
    ∃ index e,
      t.find wanted = .ok (some index) ∧
      entries[index]? = some e ∧
      entries.reverse.find? (fun e => e.name == wanted) = some e := by
  have hshows : t.Shows id (entries.map (viewed id)) := ⟨entries, h, rfl⟩
  obtain ⟨found, hfind, hnewest⟩ := hshows.exists_find wanted
  cases found with
  | none =>
    refine Or.inl ⟨hfind, ?_⟩
    rw [List.find?_eq_none]
    intro e he
    have hname := hnewest (e.viewed id) (List.mem_map.2 ⟨e, List.mem_reverse.1 he, rfl⟩)
    simpa [viewed] using hname
  | some index =>
    obtain ⟨⟨kind, hkind⟩, hlater⟩ := hnewest
    rw [List.getElem?_map, Option.map_eq_some_iff] at hkind
    obtain ⟨e, he, hviewed⟩ := hkind
    refine Or.inr ⟨index, e, hfind, he, ?_⟩
    -- What stands behind the entry comes first in the reversed list, and has other names.
    obtain ⟨hlt, hget⟩ := List.getElem?_eq_some_iff.1 he
    have hsplit : entries = entries.take index ++ e :: entries.drop (index + 1) := by
      rw [← hget, ← List.drop_eq_getElem_cons hlt, List.take_append_drop]
    rw [List.find?_eq_some_iff_append]
    refine ⟨?_, (entries.drop (index + 1)).reverse, (entries.take index).reverse, ?_,
      fun later hmem => ?_⟩
    · simpa using (Prod.mk.inj hviewed).1
    · conv_lhs => rw [hsplit]
      simp
    · obtain ⟨i, hi, rfl⟩ := List.mem_drop_iff_getElem.1 (List.mem_reverse.1 hmem)
      have hname := hlater (index + 1 + i) (viewed id _) (by omega)
        (by rw [List.getElem?_map, List.getElem?_eq_getElem (by omega)]; rfl)
      simpa [viewed] using hname

namespace Grammar

/-! ### Bindings -/

namespace Binding

def name : Binding → String
  | constant k => k.name.name
  | .variable v _ => v.name
  | procedure h => h.name.name
  | parameter name _ => name

/-- The newest binding of a name. -/
def newest? (bindings : List Binding) (wanted : String) : Option Binding :=
  bindings.reverse.find? fun b => b.name == wanted

/-- What the name of a binding stands for, with types of a catalog. -/
def Means (c : TypeCatalog) : Binding → Compilation.Designator → Prop
  | constant k, d =>
    d = { name := k.name.name, type := k.value.literal.kind.type, assignable := false }
  | .variable v type, d =>
    ∃ t, type.Denotes c t ∧ d = { name := v.name, type := t, assignable := true }
  | procedure h, d =>
    ∃ parameters result,
      Heading.ParametersHave c (h.parameters.getD []) parameters ∧
      Heading.ResultHas c h.result result ∧
      d = {
        name := h.name.name, type := .procedure, callType := result
        parameters := some parameters, assignable := false }
  | parameter name type, d => ∃ t, type.Denotes c t ∧ d = { name, type := t, assignable := true }

theorem Enters.name_eq
    {c : TypeCatalog}
    {binding : Binding}
    {e : Entry}
    (h : binding.Enters c e) :
    e.name = binding.name := by
  cases binding with
  | constant k => exact congrArg Entry.name h
  | «variable» v type => exact h.1
  | procedure heading => exact h.1
  | parameter name type => exact h.1

/-- The entry of a binding stands for what its name means. -/
theorem Enters.exists_means
    {c : TypeCatalog}
    {binding : Binding}
    {e : Entry}
    {symbol : Symbol}
    (h : binding.Enters c e)
    (hkind : symbol.kind = e.kind)
    (htype : symbol.type = e.type) :
    ∃ d, Context.valueOf? symbol binding.name = some d ∧ binding.Means c d := by
  cases binding with
  | constant k =>
    obtain rfl : e = _ := h
    exact ⟨_, by simp [Context.valueOf?, hkind]; rfl, by simp [Means, htype, name]⟩
  | «variable» v type =>
    obtain ⟨-, hvariable, hdenotes⟩ := h
    exact ⟨_, by simp [Context.valueOf?, hkind, hvariable]; rfl, e.type, hdenotes,
      by simp [htype, name]⟩
  | procedure heading =>
    obtain ⟨-, ⟨parameters, hprocedure, hparameters⟩, hresult⟩ := h
    exact ⟨_, by simp [Context.valueOf?, hkind, hprocedure]; rfl, parameters, e.type,
      hparameters, hresult, by simp [htype, name]⟩
  | parameter own type =>
    obtain ⟨-, hparameter, hdenotes⟩ := h
    exact ⟨_, by simp [Context.valueOf?, hkind, hparameter]; rfl, e.type, hdenotes,
      by simp [htype, name]⟩

theorem kind_ne_imported {c : TypeCatalog} {bindings : List Binding} {entries : List Entry}
    (h : List.Forall₂ (Enters c) bindings entries) : ∀ e ∈ entries, e.kind ≠ .imported := by
  induction h with
  | nil => simp
  | @cons binding e _ entries hentry _ ih =>
    rw [List.forall_mem_cons]
    refine ⟨?_, ih⟩
    cases binding with
    | constant k =>
      obtain rfl : e = _ := hentry
      simp
    | «variable» v type => simp [hentry.2.1]
    | procedure heading =>
      obtain ⟨-, ⟨parameters, hkind, -⟩, -⟩ := hentry
      simp [hkind]
    | parameter name type => simp [hentry.2.1]

/-- The newest entry with a name is that of its newest binding. -/
theorem newest?_spec
    {c : TypeCatalog}
    {bindings : List Binding}
    {entries : List Entry}
    (h : List.Forall₂ (Enters c) bindings entries)
    (wanted : String) :
    (newest? bindings wanted = none ∧ entries.reverse.find? (fun e => e.name == wanted) = none) ∨
    ∃ binding e,
      newest? bindings wanted = some binding ∧
      entries.reverse.find? (fun e => e.name == wanted) = some e ∧
      binding.Enters c e := by
  unfold newest?
  rw [← List.forall₂_reverse_iff] at h
  generalize bindings.reverse = bindings at h ⊢
  generalize entries.reverse = entries at h ⊢
  induction h with
  | nil => exact Or.inl ⟨rfl, rfl⟩
  | @cons binding e _ _ hentry _ ih =>
    rw [List.find?_cons, List.find?_cons, hentry.name_eq]
    cases hname : binding.name == wanted with
    | true => exact Or.inr ⟨binding, e, rfl, rfl, hentry⟩
    | false => exact ih

end Binding

/-! ### Contexts -/

theorem Module.kind_of_mem_frontEntries
    {m : Module} {entry : String × Symbol.Kind} (h : entry ∈ m.frontEntries) :
    (∃ word, entry.2 = .reserved word) ∨
    entry.2 = .thisModule ∨
    entry ∈ m.allImports.flatMap Import.entries ∧ (entry.2 = .imported ∨ entry.2 = .aliasOf 0) := by
  obtain h | h := List.mem_append.1 h
  · obtain ⟨word, rfl⟩ := reservedEntries_spec h
    exact Or.inl ⟨word, rfl⟩
  · obtain rfl | h := List.mem_cons.1 h
    · exact Or.inr (Or.inl rfl)
    · refine Or.inr (Or.inr ⟨h, ?_⟩)
      obtain ⟨i, -, hi⟩ := List.mem_flatMap.1 h
      cases i with
      | empty => cases hi
      | module name =>
        obtain rfl := List.mem_singleton.1 hi
        exact Or.inl rfl
      | renamed name real =>
        obtain rfl | hi := List.mem_cons.1 hi
        · exact Or.inl rfl
        · obtain rfl := List.mem_singleton.1 hi
          exact Or.inr rfl

/-- Words and modules are no values. -/
theorem Module.valueOf?_frontEntries
    {m : Module}
    {e : Entry}
    {symbol : Symbol}
    (h : e.viewed Symbol.Kind.outline ∈ m.frontEntries)
    (hkind : symbol.kind = e.kind)
    (wanted : String) :
    Context.valueOf? symbol wanted = none := by
  have houtline := Module.kind_of_mem_frontEntries h
  rw [viewed, ← hkind] at houtline
  unfold Context.valueOf?
  cases hcase : symbol.kind with
  | procedure exported parameters => simp [hcase, Symbol.Kind.outline] at houtline
  | constant => simp [hcase, Symbol.Kind.outline] at houtline
  | «variable» exported => simp [hcase, Symbol.Kind.outline] at houtline
  | parameter => simp [hcase, Symbol.Kind.outline] at houtline
  | _ => rfl

/-- Behind its imports, the module has the bindings in the context. -/
def Context.Holds (c : Context) (m : Module) (bindings : List Binding) : Prop :=
  ∃ first, m.Opens first ∧ first.Binds bindings c

/-- In the context, a name behind a point stands for a member of an imported module. -/
def Module.Imports (m : Module) (c : Context) (called own : String) : Prop :=
  ∃ owner, (owner, .imported) ∈ m.allImports.flatMap Import.entries ∧
    c.denotes? (.member called own) = some (owner,
      { name := own, type := .unknown, assignable := true })

/-- What a name stands for among the bindings of a module. -/
inductive Name.Means
    (m : Module) (bindings : List Binding) (c : Context) :
    Name → Compilation.Designator → Prop
  | own
      {name : Name}
      {binding : Binding}
      {d : Compilation.Designator}
      (hnewest : Binding.newest? bindings name.own = some binding)
      (hmeans : binding.Means c.types d) :
      Means m bindings c name d
  | imported {called own : String} (himported : m.Imports c called own) :
      Means m bindings c (.member called own) { name := own, type := .unknown, assignable := true }

namespace Context.Holds

variable {c : Context} {m : Module} {bindings : List Binding}

theorem types (h : c.Holds m bindings) : c.types.Extends .builtin := by
  obtain ⟨first, hopens, hbinds⟩ := h
  exact hbinds.types.trans hopens.types

theorem entries (h : c.Holds m bindings) :
    ∃ front new,
      c.symbols.Lists (front ++ new) ∧
      List.Forall₂ (Binding.Enters c.types) bindings new ∧
      front.map (viewed Symbol.Kind.outline) = m.frontEntries := by
  obtain ⟨first, hopens, hbinds⟩ := h
  obtain ⟨front, hfront, houtline⟩ := hopens.entries
  obtain ⟨new, hnew, hentered⟩ := hbinds.entries front hfront
  exact ⟨front, new, hnew, hentered, houtline⟩

/-- What a name stands for in the context, it stands for among the bindings. -/
theorem means {name : Name} {found : String × Compilation.Designator} (h : c.Holds m bindings)
    (hfound : c.denotes? name = some found) : name.Means m bindings c found.2 := by
  obtain ⟨front, new, hlists, hentered, houtline⟩ := h.entries
  have hplain : ∀ wanted, c.denotes? (.plain wanted) = some found →
      ∃ binding, Binding.newest? bindings wanted = some binding ∧
        binding.Means c.types found.2 := by
    intro wanted hwanted
    obtain ⟨index, symbol, hfind, hget, hvalue, -⟩ := (c.denotes?_plain_iff wanted found).1 hwanted
    obtain ⟨hnone, -⟩ | ⟨index', e, hfind', hindex, he⟩ := hlists.find_spec wanted
    · simp [hnone] at hfind
    · obtain rfl : index' = index := by simpa [hfind'] using hfind
      obtain ⟨e', hindex', hkind, htype⟩ := hlists.exists_entry hget
      obtain rfl : e' = e := by simpa [hindex'] using hindex
      rw [List.reverse_append, List.find?_append] at he
      obtain ⟨-, hnone⟩ | ⟨binding, entry, hnewest, hentry, henters⟩ :=
        Binding.newest?_spec hentered wanted
      · -- A name without a binding is a reserved word or a module.
        rw [hnone, Option.none_or] at he
        have hmem : e' ∈ front := List.mem_reverse.1 (List.mem_of_find?_eq_some he)
        have hfront := houtline ▸ List.mem_map_of_mem (f := viewed Symbol.Kind.outline) hmem
        rw [Module.valueOf?_frontEntries hfront hkind] at hvalue
        cases hvalue
      · rw [hentry, Option.some_or] at he
        cases he
        obtain ⟨d, hd, hmeans⟩ := henters.exists_means hkind htype
        have hname : binding.name = wanted := by simpa using List.find?_some hnewest
        rw [hname, hvalue] at hd
        cases hd
        exact ⟨binding, hnewest, hmeans⟩
  cases name with
  | plain wanted =>
    obtain ⟨binding, hnewest, hmeans⟩ := hplain wanted hfound
    exact .own hnewest hmeans
  | member called own =>
    obtain ⟨index, target, symbol, -, -, hget, ⟨-, hwanted⟩ | ⟨hkind, hname, hvalue⟩⟩ :=
      (c.denotes?_member_iff ..).1 hfound
    · obtain ⟨binding, hnewest, hmeans⟩ := hplain own hwanted
      exact .own hnewest hmeans
    · -- Bindings are no modules, so the entry of the module is one in front of them.
      obtain ⟨e, hindex, hkind', -⟩ := hlists.exists_entry hget
      rw [hkind] at hkind'
      have howner : e.name = found.1 := by simpa [hlists.name_eq hindex] using hname
      have himported : (found.1, .imported) ∈ m.allImports.flatMap Import.entries := by
        obtain hmem | hmem := List.mem_append.1 (List.mem_of_getElem? hindex)
        · have hfront := houtline ▸ List.mem_map_of_mem (f := viewed Symbol.Kind.outline) hmem
          rw [viewed, ← hkind', howner] at hfront
          obtain ⟨_, hword⟩ | hthis | ⟨himported, -⟩ := Module.kind_of_mem_frontEntries hfront
          · cases hword
          · cases hthis
          · exact himported
        · exact absurd hkind'.symm (Binding.kind_ne_imported hentered e hmem)
      obtain ⟨owner, d⟩ := found
      obtain rfl : d = _ := hvalue
      exact .imported ⟨owner, himported, hfound⟩

end Context.Holds

/-- What a designator stands for is found from what its name stands for. -/
theorem Context.Holds.exists_means
    {c : Context}
    {m : Module}
    {bindings : List Binding}
    {name : Name}
    {indices : List Expression}
    {d : Compilation.Designator}
    (h : c.Holds m bindings)
    (hvalue : (Designator.mk name indices).value? c = some d) :
    ∃ value, name.Means m bindings c value ∧ indexed? c value indices = some d := by
  rw [Designator.value?] at hvalue
  obtain ⟨⟨owner, value⟩, hfound, hindexed⟩ := Option.bind_eq_some_iff.1 hvalue
  exact ⟨value, h.means hfound, hindexed⟩

/-! ### Elements -/

/-- An index takes a value to its element. -/
theorem indexed?_cons_eq_some
    {c : Context}
    {value d : Compilation.Designator}
    {index : Expression}
    {indices : List Expression}
    (h : indexed? c value (index :: indices) = some d) :
    ∃ type,
      c.types.element value.type = .ok type ∧
      indexed? c { value with type, callType := .unknown, parameters := none } indices =
        some d := by
  rw [indexed?] at h
  obtain ⟨type, htype, h⟩ := Option.bind_eq_some_iff.1 h
  obtain ⟨position, -, h⟩ := Option.bind_eq_some_iff.1 h
  rw [Option.ite_none_right_eq_some] at h
  exact ⟨type, toOption_eq_some_iff.1 htype, h.2⟩

/-! ### Places -/

/--
The block stands in the module, behind bindings and where values of a type are returned, or none.
-/
inductive Module.Has (m : Module) : Block → List Binding → Option TypeExpression → Prop
  | block {b : Block} (hblock : m.block = some b) :
      Has m b (m.sections.flatMap Section.bindings) none
  | procedure
      {b : Block}
      {before after : List Section}
      {p : Procedure}
      (hsections : m.sections = before ++ .procedure p :: after)
      (hblock : p.block = some b) :
      Has m b (before.flatMap Section.bindings ++ p.bindings) p.heading.result

/-- Each block of a module has its place. -/
theorem Module.exists_has
    {m : Module} {b : Block} (hb : b ∈ m.blocks) :
    ∃ bindings returns, m.Has b bindings returns := by
  obtain hb | hb := List.mem_append.1 hb
  · obtain ⟨part, hpart, hb⟩ := List.mem_flatMap.1 hb
    cases part with
    | procedure p =>
      obtain ⟨before, after, hsections⟩ := List.append_of_mem hpart
      exact ⟨_, _, .procedure hsections (Option.mem_toList.1 hb)⟩
    | _ => cases hb
  · exact ⟨_, _, .block (Option.mem_toList.1 hb)⟩

/--
In a checked module the statements of a block are well formed among the bindings in front of them.
-/
theorem Module.Checked.holds
    {m : Module}
    {b : Block}
    {bindings : List Binding}
    {returns : Option TypeExpression}
    (h : m.Checked)
    (hb : m.Has b bindings returns) :
    b.around.Holds m bindings ∧
    ∃ result,
      Heading.ResultHas b.around.types returns result ∧ BodyWellFormed b.around result b.body := by
  obtain ⟨first, last, hopens, hsections, hlast⟩ := h
  have hbinds : ∀ {c d : Context} {parts : List Section},
      Steps (fun c part d => Section.Checked m.name
        (fun called real => (called, real) ∈ m.modules) c part d) c parts d →
        c.Binds (parts.flatMap Section.bindings) d :=
    fun hsteps => .of_steps (hsteps.imp fun _ _ _ h => h.binds)
  cases hb with
  | block hblock =>
    obtain ⟨rfl, hchecked⟩ := hlast b (by simp [hblock])
    exact ⟨⟨first, hopens, hbinds hsections⟩, .unknown, rfl, hchecked.wellFormed⟩
  | procedure hparts hblock =>
    rw [hparts] at hsections
    obtain ⟨c, d, hbefore, hpart, -⟩ := hsections.split
    obtain ⟨hinside, result, hresult, hchecked⟩ := hpart.procedures _ rfl b (by simp [hblock])
    exact ⟨⟨first, hopens, (hbinds hbefore).trans hinside⟩, result, hresult, hchecked.wellFormed⟩

end Grammar
end Oberon
