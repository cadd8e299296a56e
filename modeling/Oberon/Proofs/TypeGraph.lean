import Oberon.Proofs.Typing

/-!
# The types of a module

All states of a compilation are typed, also the one in which it fails: every type that is remembered
is one of the catalog, and the catalog is layered.

**Declarations.**  A type expression gives a type of the catalog at its end, and its elements are no
array.  What is entered for names, parameters and results is such a type.

**Designators.**  A variable, a parameter or a constant is of a type of the catalog.  Its elements
have elements of their own only if nothing is known of them, so no second index is accepted behind
anything else (`element_of_value?`).
-/

namespace Oberon

namespace Grammar

theorem BasicType.scalar (type : BasicType) :
    type.type.isBuiltin = true ∧ TypeCatalog.builtin.form type.type = .scalar := by
  cases type with
  | builtin word =>
    obtain ⟨word, hword⟩ := word
    revert hword
    cases word <;> decide
  | undeclared name => exact ⟨rfl, rfl⟩
  | member q => exact ⟨rfl, rfl⟩

end Grammar

namespace Compilation

open Oberon.Grammar
open Oberon.Compilation.Action

variable {depth : Nat} {least : TypeCatalog}

/-! ### Requests with types -/

theorem typing_addType
    {shape : Shape} (h : ∀ c : TypeCatalog, c.Extends least → c.Layered → c.Composed c.size shape) :
    Typing least depth (addType shape) fun c type => c.shapes[type.number]? = some shape := by
  refine .ask ?_ ?_
  · intro s hgrown hs
    change State.Typed { s with types := (s.types.add shape).2 }
    have hadded := TypeCatalog.extends_add s.types shape
    exact ⟨hs.layered.add (h s.types hgrown hs.layered),
      fun symbol hmem => (hs.symbols symbol hmem).mono hadded,
      hadded.has hs.result⟩
  · intro s t type _ _ hperform
    have hgives : (addType shape).Gives depth s type t := (gives_ask _ _).2 hperform
    exact shape_of_addType hgives

theorem typing_setType {index : Nat} {type : DataType} (h : least.Has type) :
    Typing least depth (setType index type) fun _ _ => True := by
  refine .ask ?_ fun _ _ _ _ _ _ => trivial
  intro s hgrown hs
  have hentered : ∀ symbol : Symbol, symbol.TypedIn s.types →
      Symbol.TypedIn s.types { symbol with type } :=
    fun _ hsymbol => ⟨hgrown.has h, hsymbol.2⟩
  change (endState (Request.changeSymbols (fun t => t.setType index type) s)).Typed
  unfold Request.changeSymbols
  split
  · rename_i symbols hset
    exact hs.update hentered hset
  · exact hs

theorem typing_setSignature
    {index : Nat}
    {exported : Bool}
    {parameters : List DataType}
    {result : DataType}
    (hparameters : ∀ type ∈ parameters, least.Has type)
    (hresult : least.Has result) :
    Typing least depth (ask (.setSignature index exported parameters result) done)
      fun _ _ => True := by
  refine .ask ?_ fun _ _ _ _ _ _ => trivial
  intro s hgrown hs
  have hentered : ∀ symbol : Symbol, symbol.TypedIn s.types →
      Symbol.TypedIn s.types
        { symbol with kind := .procedure exported parameters, type := result } :=
    fun _ _ => ⟨hgrown.has hresult, fun type htype => hgrown.has (hparameters type htype)⟩
  cases hperform : (Request.setSignature index exported parameters result).perform s with
  | ok a t =>
    have hgives : (ask (.setSignature index exported parameters result) done).Gives depth s a t :=
      (gives_ask _ _).2 hperform
    obtain ⟨symbols, hset, rfl⟩ := (gives_setSignature index exported parameters result a).1 hgives
    have hupdated := hs.update hentered hset
    exact hupdated.of_symbols rfl hupdated.symbols (hgrown.has hresult)
  | error halt t =>
    obtain herror | ⟨_, u, -, herror⟩ := (Effect.bind_eq_error_iff ..).1 hperform
    · unfold Request.changeSymbols at herror
      split at herror
      · cases herror
      · cases herror
        exact hs
    · cases herror

/-! ### Types -/

theorem typing_basicType :
    Typing least depth basicType fun _ d => d.type.isBuiltin = true ∧
      TypeCatalog.builtin.form d.type = .scalar := by
  refine .of_honors (honors_typeless basicType) ?_
  intro s t d _ _ hgives
  obtain ⟨type, -, -, -, htype⟩ := leaves_of_basicType hgives
  rw [htype]
  exact type.scalar

/-- A pointer to a built-in scalar may be added. -/
theorem composed_pointer
    {c : TypeCatalog}
    {base : DataType}
    (h : c.Layered)
    (hbuiltin : base.isBuiltin = true)
    (hscalar : TypeCatalog.builtin.form base = .scalar) :
    c.Composed c.size ⟨.pointer, base, 0⟩ where
  form_ne := nofun
  base_lt := h.has_of_isBuiltin hbuiltin
  element := nofun
  target _ :=
    Or.inr ⟨hbuiltin, (h.builtin.form_eq (TypeCatalog.has_builtin hbuiltin)).trans hscalar⟩

theorem typing_elementDeclarator :
    Typing least depth elementDeclarator fun c d => c.Has d.type ∧ c.form d.type ≠ .array := by
  have hpointer : ∀ (c : TypeCatalog) (base : DataType) (left : String), base.isBuiltin = true →
      TypeCatalog.builtin.form base = .scalar →
      Typing c depth (do return (⟨← addType ⟨.pointer, base, 0⟩, left, ""⟩ : Declarator))
        fun c d => c.Has d.type ∧ c.form d.type ≠ .array := by
    intro c base left hbuiltin hscalar
    refine .bind (typing_addType fun _ _ hlayered => composed_pointer hlayered hbuiltin hscalar)
      fun type d _ htype => ?_
    refine .pure fun e he _ => ?_
    have hshape := he.getElem? htype
    refine ⟨TypeCatalog.has_of_getElem? hshape, ?_⟩
    rw [TypeCatalog.form, TypeCatalog.shape_of_getElem? hshape]
    simp
  have hscalar : ∀ {c : TypeCatalog} {type : DataType}, c.Layered → type.isBuiltin = true →
      TypeCatalog.builtin.form type = .scalar → c.Has type ∧ c.form type ≠ .array := by
    intro c type hlayered hbuiltin hscalar
    refine ⟨hlayered.has_of_isBuiltin hbuiltin, ?_⟩
    rw [hlayered.builtin.form_eq (TypeCatalog.has_builtin hbuiltin), hscalar]
    simp
  refine .bind (.of_typeless _) fun _ c _ _ => .ite (fun _ => ?_) fun _ => ?_
  · refine .bind (.of_typeless _) fun _ d _ _ => .ite (fun _ => ?_) fun _ => hpointer d _ _ rfl rfl
    exact .bind typing_basicType fun base e _ hbase => hpointer e base.type _ hbase.1 hbase.2
  · refine .bind (.of_typeless _) fun _ d _ _ => .ite (fun _ => ?_) fun _ => ?_
    · exact .pure fun e _ hlayered => hscalar hlayered rfl rfl
    · exact typing_basicType.weaken fun e d hlayered hd => hscalar hlayered hd.1 hd.2

theorem typing_declaredType : Typing least depth declaredType fun c d => c.Has d.type := by
  refine .bind (.of_typeless _) fun _ c _ _ => .ite (fun _ => ?_) fun _ => ?_
  · refine .bind (.of_typeless _) fun found d _ _ => ?_
    obtain ⟨size, length⟩ := found
    refine .bind (.of_typeless _) fun _ d _ _ => .bind (.of_typeless _) fun _ d _ _ =>
      .ite (fun _ => .reject) fun _ => ?_
    refine .bind typing_elementDeclarator fun element d _ helement => ?_
    have hcomposed : ∀ e : TypeCatalog, e.Extends d → e.Layered →
        e.Composed e.size ⟨.array, element.type, length⟩ := by
      intro e he _
      refine ⟨nofun, he.has helement.1, fun _ => ?_, nofun⟩
      rw [he.form_eq helement.1]
      exact helement.2
    refine .bind (typing_addType hcomposed) fun type e _ htype => ?_
    exact .pure fun f hf _ => TypeCatalog.has_of_getElem? (hf.getElem? htype)
  · exact typing_elementDeclarator.weaken fun _ _ _ hd => hd.1

/-! ### Constants and variables -/

theorem typing_constantValue :
    Typing least depth constantValue fun _ value => value.2.isBuiltin = true := by
  refine .bind (.of_typeless _) fun negated c _ _ => .bind (.of_typeless kind) fun next d _ _ => ?_
  split
  · exact .bind (.of_typeless _) fun _ _ _ _ => .pure fun _ _ _ => rfl
  · exact .bind (.of_typeless _) fun _ _ _ _ => .pure fun _ _ _ => rfl
  · rename_i numeral _ _
    refine .ite (fun _ => .reject) fun _ => .bind (.of_typeless _) fun _ _ _ _ =>
      .pure fun _ _ _ => ?_
    cases numeral <;> rfl
  · exact .ite (fun _ => .reject) fun _ => .bind (.of_typeless _) fun _ _ _ _ =>
      .pure fun _ _ _ => rfl
  · exact .ite (fun _ => .reject) fun _ => .bind (.of_typeless _) fun _ _ _ _ =>
      .pure fun _ _ _ => rfl
  · exact .reject

theorem typing_constantDeclaration : Typing least depth constantDeclaration fun _ _ => True := by
  refine .bind (.of_typeless _) fun name _ _ _ => .bind (.of_typeless _) fun exported _ _ _ => ?_
  refine .bind (.of_typeless _) fun _ _ _ _ => .bind typing_constantValue fun value _ _ hvalue => ?_
  obtain ⟨value, type⟩ := value
  have hdeclare : Uses typeless (declare name .constant type) := .ask ⟨hvalue, rfl⟩
  exact .of_typeless _

theorem typing_variableOf {d : Declarator} {v : Named} (h : least.Has d.type) :
    Typing least depth (variableOf d v) fun _ _ => True := by
  refine .bind (typing_setType h) fun _ _ _ _ => .bind (.of_typeless _) fun _ _ _ _ => ?_
  refine .bind (.of_typeless Action.scope) fun _ _ _ _ => ?_
  split <;> exact .of_typeless _

theorem typing_variableDeclaration : Typing least depth variableDeclaration fun _ _ => True := by
  refine .bind (.of_typeless _) fun names _ _ _ => .bind (.of_typeless _) fun _ _ _ _ => ?_
  refine .bind typing_declaredType fun d c _ hd => .bind (.of_typeless _) fun _ e he _ => ?_
  exact .forM fun v _ f hf => typing_variableOf (hf.has (he.has hd))

theorem typing_variableDeclarations : Typing least depth variableDeclarations fun _ _ => True :=
  .repeatWhile (.of_typeless _) typing_variableDeclaration

/-! ### Procedures -/

/-- The types of all parameters were given out. -/
def ParametersTyped (c : TypeCatalog) (parameters : List (DataType × String)) : Prop :=
  ∀ parameter ∈ parameters, c.Has parameter.1

theorem typing_parameterGroup : Typing least depth parameterGroup ParametersTyped := by
  refine .bind (.of_typeless _) fun _ _ _ _ => .ite (fun _ => .reject) fun _ => ?_
  refine .bind (.of_typeless _) fun names _ _ _ => .bind (.of_typeless _) fun _ _ _ _ => ?_
  refine .bind typing_declaredType fun d c _ hd => ?_
  refine .mapM (fun _ _ _ hgrown h => hgrown.has h) fun p _ e he => ?_
  refine .bind (typing_setType (he.has hd)) fun _ f hf _ =>
    .bind (.of_typeless moduleName) fun _ g hg _ => ?_
  exact .pure fun _ hlast _ => hlast.has (hg.has (hf.has (he.has hd)))

theorem typing_parameterList : Typing least depth parameterList ParametersTyped := by
  have hmono : ∀ (c d : TypeCatalog) (parameters : List (DataType × String)), c.Extends d →
      ParametersTyped d parameters → ParametersTyped c parameters :=
    fun _ _ _ hgrown h parameter hmem => hgrown.has (h parameter hmem)
  refine .bind (.of_typeless _) fun _ _ _ _ => .ite (fun _ => ?_) fun _ => .pure fun _ _ _ => nofun
  refine .bind (.of_typeless _) fun _ _ _ _ => .ite (fun _ => ?_) fun _ => ?_
  · refine .bind (Typing.pure (Q := fun _ groups => groups = []) fun _ _ _ => rfl)
      fun groups _ _ hgroups => ?_
    rw [hgroups]
    exact .bind (.of_typeless _) fun _ _ _ _ => .pure fun _ _ _ => nofun
  · refine .bind (.separated hmono (fun _ _ => typing_parameterGroup) fun _ => .of_typeless _)
      fun groups c _ hgroups => ?_
    refine .bind (.of_typeless _) fun _ d hd _ => .pure fun e he _ parameter hmem => ?_
    obtain ⟨group, hgroup, hmem⟩ := List.mem_flatten.1 hmem
    exact hmono e c group (he.trans hd) (hgroups group hgroup) parameter hmem

theorem typing_resultType : Typing least depth resultType fun c d => c.Has d.type :=
  .bind (.of_typeless _) fun _ _ _ _ => .ite (fun _ => typing_declaredType) fun _ =>
    .pure fun _ _ hlayered => hlayered.has_unknown

theorem typing_procedureHeader {entry : Nat} {name : String} {exported : Bool} :
    Typing least depth (procedureHeader entry name exported) fun _ _ => True := by
  refine .bind typing_parameterList fun parameters c _ hparameters =>
    .bind typing_resultType fun result d hd hresult => ?_
  refine .bind (.of_typeless _) fun _ e he _ => .bind (typing_setSignature ?_ (he.has hresult))
    fun _ _ _ _ => ?_
  · intro type htype
    obtain ⟨parameter, hmem, rfl⟩ := List.mem_map.1 htype
    exact he.has (hd.has (hparameters parameter hmem))
  · exact .of_typeless _

theorem typing_procedureBody {name : String} :
    Typing least depth (procedureBody name) fun _ _ => True :=
  .bind (.repeatWhile (.of_typeless _) typing_variableDeclarations) fun _ _ _ _ => .of_typeless _

theorem typing_procedureDeclaration : Typing least depth procedureDeclaration fun _ _ => True := by
  refine .bind (.of_typeless _) fun name _ _ _ => .bind (.of_typeless _) fun exported _ _ _ => ?_
  refine .bind (.of_typeless _) fun _ _ _ _ => .bind (.of_typeless _) fun entry _ _ _ => ?_
  exact .inProcedure fun _ => .bind typing_procedureHeader fun _ _ _ _ => typing_procedureBody

/-! ### Modules -/

theorem typing_declarations : Typing least depth declarations fun _ _ => True := by
  refine .bind (.of_typeless _) fun _ _ _ _ => .ite (fun _ => ?_) fun _ => ?_
  · exact .bind (.repeatWhile (.of_typeless _) typing_constantDeclaration) fun _ _ _ _ =>
      .of_typeless _
  refine .bind (.of_typeless _) fun _ _ _ _ => .ite (fun _ => ?_) fun _ => ?_
  · exact .bind typing_variableDeclarations fun _ _ _ _ => .of_typeless _
  refine .bind (.of_typeless _) fun _ _ _ _ => .ite (fun _ => ?_) fun _ => .of_typeless _
  exact .bind typing_procedureDeclaration fun _ _ _ _ => .of_typeless _

theorem typing_wholeModule (header : String) :
    Typing least depth (wholeModule header) fun _ _ => True := by
  refine .bind (.of_typeless _) fun _ _ _ _ =>
    .bind (.repeatWhile (.of_typeless _) (.of_typeless _)) fun _ _ _ _ => ?_
  refine .bind (.of_typeless _) fun _ _ _ _ => .bind (.of_typeless _) fun _ _ _ _ => ?_
  exact .bind (.repeatWhile typing_declarations (.of_typeless _)) fun _ _ _ _ => .of_typeless _

/-- The reserved words are of built-in types. -/
theorem typedIn_addKeywords
    {words : List Keyword}
    {table seeded : SymbolTable}
    (h : ∀ symbol ∈ table.entries, symbol.TypedIn .builtin)
    (hseed : table.addKeywords words = .ok () seeded) :
    ∀ symbol ∈ seeded.entries, symbol.TypedIn .builtin := by
  induction words generalizing table with
  | nil =>
    cases hseed
    exact h
  | cons word words ih =>
    unfold SymbolTable.addKeywords at hseed
    split at hseed
    · rename_i index next hadd
      refine ih (fun symbol hmem => ?_) hseed
      obtain hmem | ⟨hkind, htype⟩ := SymbolTable.mem_of_add hadd hmem
      · exact h symbol hmem
      · refine ⟨?_, by simp [hkind, Symbol.Kind.parameterTypes]⟩
        rw [htype]
        exact TypeCatalog.has_builtin (by cases word <;> rfl)
    · cases hseed

theorem typed_start
    {source : String}
    {limits : Limits}
    {s : State}
    (h : State.start source limits = .ok s) :
    s.Typed := by
  unfold State.start at h
  split at h
  · cases h
  · rename_i symbols hseed
    have hsymbols := typedIn_addKeywords (fun _ hmem => absurd hmem (Array.not_mem_empty _)) hseed
    split at h
    · cases h
    · cases h
    · cases h
      exact ⟨TypeCatalog.layered_builtin, hsymbols, TypeCatalog.layered_builtin.has_unknown⟩

/-! ### Designators -/

end Compilation

namespace Grammar

/-- A symbol that stands for a value of its own type. -/
def holdsValue : Symbol.Kind → Bool
  | .constant => true
  | .variable _ => true
  | .parameter => true
  | _ => false

/--
A name stands for a symbol of the module that is compiled, by itself or as a member of the module.
-/
inductive Context.Names (c : Context) : Name → Symbol → Prop
  | plain {name : String} {symbol : Symbol} (h : c.newest? name = some symbol) :
      Names c (.plain name) symbol
  | member
      {module name : String}
      {index : Nat}
      {owner symbol : Symbol}
      (hmodule : c.moduleIndex? module = some index)
      (hget : c.symbols.get index = .ok owner)
      (howner : owner.kind = .thisModule)
      (h : c.newest? name = some symbol) :
      Names c (.member module name) symbol

variable {c : Context} {symbol : Symbol}

theorem type_of_valueOf?
    {name : String} {d : Compilation.Designator} (hkind : holdsValue symbol.kind = true)
    (h : Context.valueOf? symbol name = some d) : d.type = symbol.type := by
  unfold Context.valueOf? at h
  split at h
  · rename_i hprocedure
    simp [hprocedure, holdsValue] at hkind
  all_goals cases h
  all_goals rfl

theorem type_of_denotes?
    {name : Name}
    {found : String × Compilation.Designator}
    (hname : c.Names name symbol)
    (hkind : holdsValue symbol.kind = true)
    (h : c.denotes? name = some found) :
    found.2.type = symbol.type := by
  have hplain : ∀ name, c.newest? name = some symbol → c.denotes? (.plain name) = some found →
      found.2.type = symbol.type := by
    intro name hnewest h
    obtain ⟨index, other, hfind, hget, hvalue, -⟩ := (c.denotes?_plain_iff ..).1 h
    rw [(c.newest?_eq_some_iff ..).2 ⟨index, hfind, hget⟩] at hnewest
    cases hnewest
    exact type_of_valueOf? hkind hvalue
  cases hname with
  | plain hnewest => exact hplain _ hnewest h
  | member hmodule hget howner hnewest =>
    obtain ⟨index, target, other, hfind, hresolve, hother, hcases⟩ := (c.denotes?_member_iff ..).1 h
    rw [(c.moduleIndex?_eq_some_iff ..).2 ⟨index, hfind, hresolve⟩] at hmodule
    cases hmodule
    rw [hother] at hget
    cases hget
    obtain ⟨-, h⟩ | ⟨himported, -⟩ := hcases
    · exact hplain _ hnewest h
    · rw [howner] at himported
      cases himported

/-- Behind two indices, the first element had elements of its own. -/
theorem element_of_indexed?
    {value d : Compilation.Designator}
    {first second : Expression}
    {others : List Expression}
    (h : indexed? c value (first :: second :: others) = some d) :
    ∃ element inner,
      c.types.element value.type = .ok element ∧ c.types.element element = .ok inner := by
  simp only [indexed?, Option.bind_eq_bind, Option.bind_eq_some_iff, toOption_eq_some_iff] at h
  obtain ⟨element, helement, _, -, h⟩ := h
  split at h
  · obtain ⟨inner, hinner, -⟩ := Option.bind_eq_some_iff.1 h
    exact ⟨element, inner, helement, toOption_eq_some_iff.1 hinner⟩
  · cases h

/-- In a layered catalog only elements of unknown type can be indexed again. -/
theorem element_of_value?
    {name : Name}
    {indices : List Expression}
    {d : Compilation.Designator}
    (hlayered : c.types.Layered)
    (h : (Designator.mk name indices).value? c = some d)
    (hindices : 2 ≤ indices.length)
    (hname : c.Names name symbol)
    (hkind : holdsValue symbol.kind = true) :
    c.types.element symbol.type = .ok .unknown := by
  obtain ⟨first, second, others, rfl⟩ : ∃ first second others,
      indices = first :: second :: others := by
    match indices, hindices with
    | first :: second :: others, _ => exact ⟨first, second, others, rfl⟩
  simp only [Designator.value?, Option.bind_eq_bind, Option.bind_eq_some_iff] at h
  obtain ⟨found, hdenotes, hindexed⟩ := h
  obtain ⟨element, inner, helement, hinner⟩ := element_of_indexed? hindexed
  rw [← type_of_denotes? hname hkind hdenotes, helement, hlayered.element_unknown helement hinner]

end Grammar

namespace Compilation

open Oberon.Grammar
open Oberon.Compilation.Action

/--
In every state of a compilation, also in the one in which it fails, the types of all symbols,
parameters and results are types of the catalog, and so is the base of every type.  The base of a
declared type has a smaller number, so no chain of bases comes back to its start; the elements of an
array are no arrays, and a pointer points to a built-in scalar or to something unknown.  Where a
designator is accepted that names a variable, a parameter or a constant of the module and has two
indices or more, the type of its elements is unknown.
-/
theorem reaches_typed (source header : String) (limits : Limits) :
    match State.start source limits with
    | .error _ => True
    | .ok start =>
      ∀ u, (wholeModule header).Reaches (start.remaining + 1) start u ∨
        u = endState ((wholeModule header).perform start) →
        u.Typed ∧ (∀ type, u.types.Has (u.types.base type)) ∧
        (∀ type, type ≠ .unknown → ∀ steps, u.types.base^[steps + 1] type ≠ type) ∧
        ∀ depth d t, designator.Gives depth u d t →
          ∃ name indices, (Grammar.Designator.mk name indices).value? u.context = some d ∧
            u.Translates (Grammar.Designator.mk name indices).spelling
              ((Grammar.Designator.mk name indices).text u.context) t ∧
            ∀ symbol, 2 ≤ indices.length → u.context.Names name symbol →
              holdsValue symbol.kind = true →
              u.types.element symbol.type = .ok .unknown := by
  split
  · trivial
  · rename_i start hstart
    have htyping : Typing start.types (start.remaining + 1) (wholeModule header) fun _ _ => True :=
      typing_wholeModule header
    have htyped : ∀ u, (wholeModule header).Reaches (start.remaining + 1) start u ∨
        u = endState ((wholeModule header).perform start) → u.Typed := by
      rintro u (hreaches | rfl)
      · obtain ⟨moment, hcomes⟩ := hreaches.comes
        exact htyping.comes ⟨.refl _, typed_start hstart⟩ hcomes
      · cases hrun : (wholeModule header).perform start with
        | ok a t => exact (htyping.gives ⟨.refl _, typed_start hstart⟩ hrun).2.2
        | error halt t => exact htyping.halts ⟨.refl _, typed_start hstart⟩ hrun
    intro u hu
    have hu := htyped u hu
    refine ⟨hu, hu.layered.has_base, fun type htype steps => hu.layered.climb_ne htype steps, ?_⟩
    intro depth d t hgives
    have hdeeper := hgives.deeper (Nat.le_max_left depth u.remaining)
    obtain ⟨⟨name, indices⟩, hvalue, -, htranslates⟩ :=
      (gives_designator_iff (recognizes_expressions _) (Nat.le_max_right depth u.remaining) d).1
        hdeeper
    exact ⟨name, indices, hvalue, htranslates, fun symbol hindices hname hkind =>
      element_of_value? hu.layered hvalue hindices hname hkind⟩

end Compilation
end Oberon
