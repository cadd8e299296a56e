import Oberon.Proofs.Grammar.Binding
import Oberon.Proofs.Translation.Statement

/-!
# The entries of declarations

What the declarations of a module enter into the symbol table, in the words of its bindings:
`s.Binds bindings t`.

**Names with a type.**  Names that share a type are entered first, one behind the other
(`State.Enters`), and get their type when it has been read (`State.Typing`); together they are bound
then (`binds_of_names`).

**Procedures.**  The entry of a procedure stands in front of those of its parameters and is
completed behind them (`exists_entry_of_heading`).  Of all that is entered inside the procedure only
this one is left behind it (`binds_of_release`).
-/

namespace Oberon
namespace Compilation

open Oberon.Grammar
open Oberon.Compilation.Action

variable {α : Type} {depth : Nat} {s t u : State}

/-- In the same scope, `t` has the bindings more than `s`. -/
structure State.Binds (s : State) (bindings : List Binding) (t : State) : Prop where
  scope : t.scope = s.scope
  context : s.context.Binds bindings t.context

namespace State.Binds

variable {bindings others : List Binding}

theorem refl (s : State) : s.Binds [] s := ⟨rfl, .refl _⟩

theorem trans (h : s.Binds bindings u) (h' : u.Binds others t) : s.Binds (bindings ++ others) t :=
  ⟨h'.scope.trans h.scope, h.context.trans h'.context⟩

theorem of_steps
    {ι : Type}
    {names : ι → List Binding}
    {xs : List ι}
    (h : Steps (fun s x t => s.Binds (names x) t) s xs t) :
    s.Binds (xs.flatMap names) t := by
  induction h with
  | nil s => exact .refl s
  | cons hstep _ ih => exact hstep.trans ih

end State.Binds

/-- A passage binds nothing. -/
theorem State.Translates.binds
    {words : List Word} {text : String} (h : s.Translates words text t) :
    s.Binds [] t :=
  ⟨h.scope_eq, by rw [h.context_eq]; exact .refl _⟩

/-! ### Names and their types -/

/-- The entry of a name with a type. -/
def Named.entry
    (kind : Named → Symbol.Kind) (type : DataType) (v : Named) :
    Entry :=
  ⟨v.name, kind v, type⟩

/-- From `s` to `t` names are entered one behind the other, without types. -/
structure State.Enters
    (s : State)
    (kind : Named → Symbol.Kind)
    (names : List Named)
    (t : State) :
    Prop where
  scope : t.scope = s.scope
  moduleName : t.moduleName = s.moduleName
  entries : ∀ old, s.symbols.Lists old →
    t.symbols.Lists (old ++ names.map (Named.entry kind .unknown)) ∧
    names.map Named.index = List.range' old.length names.length

namespace State.Enters

variable {kind : Named → Symbol.Kind} {names others : List Named}

theorem trans (h : s.Enters kind names u) (h' : u.Enters kind others t) :
    s.Enters kind (names ++ others) t where
  scope := h'.scope.trans h.scope
  moduleName := h'.moduleName.trans h.moduleName
  entries old hold := by
    obtain ⟨hu, hnames⟩ := h.entries old hold
    obtain ⟨ht, hothers⟩ := h'.entries _ hu
    refine ⟨by simpa using ht, ?_⟩
    simp [hnames, hothers]

theorem of_declare
    {v : Named}
    {symbols : SymbolTable}
    (hadd : s.symbols.add v.name (kind v) .unknown = .ok (v.index, symbols)) :
    s.Enters kind [v] { s with symbols } where
  scope := rfl
  moduleName := rfl
  entries old hold := by
    obtain ⟨hindex, hlists⟩ := hold.add hadd
    exact ⟨hlists, by simp [hindex]⟩

theorem of_eq
    (hscope : t.scope = s.scope)
    (hmodule : t.moduleName = s.moduleName)
    (hsymbols : t.symbols = s.symbols) :
    s.Enters kind [] t :=
  ⟨hscope, hmodule, fun old hold => ⟨by simpa [hsymbols] using hold, rfl⟩⟩

/-- Names in a list are entered if each of them is. -/
theorem of_items
    {item : Action Named} {more : Action Bool}
    (hitem : ∀ {u v : State} {a : Named}, item.Gives depth u a v → u.Enters kind [a] v)
    (hmore : ∀ {u v : State} {again : Bool}, more.Gives depth u again v → u.Enters kind [] v)
    (h : Items depth item more s names t) : s.Enters kind names t := by
  induction h with
  | last hgives hend => exact (hitem hgives).trans (hmore hend)
  | cons hgives hagain _ ih => exact ((hitem hgives).trans (hmore hagain)).trans ih

end State.Enters

/-- The types of names are entered one after the other. -/
abbrev State.Typing (type : DataType) (s : State) (names : List Named) (t : State) : Prop :=
  Steps (fun a v b => a.symbols.setType v.index type = .ok b.symbols) s names t

/-- Names that stand side by side get their type. -/
theorem State.Typing.lists
    {kind : Named → Symbol.Kind}
    {type : DataType}
    {names : List Named}
    {old : List Entry}
    (h : State.Typing type s names t)
    (hlists : s.symbols.Lists (old ++ names.map (Named.entry kind .unknown)))
    (hindices : names.map Named.index = List.range' old.length names.length) :
    t.symbols.Lists (old ++ names.map (Named.entry kind type)) := by
  induction h generalizing old with
  | nil s => exact hlists
  | @cons s t u v names hset _ ih =>
    simp only [List.map_cons, List.length_cons, List.range'_succ, List.cons.injEq] at hindices
    obtain ⟨hindex, hindices⟩ := hindices
    have hupdated :=
      hlists.update (f := fun e => { e with type }) (fun _ => rfl) (fun _ _ => rfl) hset
    -- The first name that has no type yet stands right behind the old entries; with its type it is
    -- one of them.
    have hfirst : (old ++ (v :: names).map (Named.entry kind .unknown)).modify v.index
          (fun e => { e with type }) =
        old ++ [v.entry kind type] ++ names.map (Named.entry kind .unknown) := by
      rw [hindex]
      simp [List.modify_eq_take_cons_drop, Named.entry]
    rw [hfirst] at hupdated
    have hrest := ih hupdated (by simpa using hindices)
    rwa [List.append_assoc] at hrest

section Loops

variable {ι β : Type}

theorem steps_of_forM
    {f : ι → Action Unit} {items : List ι} {a : Unit} (h : (items.forM f).Gives depth s a t) :
    Steps (fun u x v => (f x).Gives depth u () v) s items t := by
  induction items generalizing s with
  | nil =>
    obtain ⟨-, rfl⟩ := (gives_pure _ _).1 h
    exact .nil _
  | cons x items ih =>
    obtain ⟨_, u, hx, hrest⟩ := (gives_bind _ _ _).1 h
    exact .cons hx (ih hrest)

theorem steps_of_mapM
    {f : ι → Action β}
    {items : List ι}
    {results : List β}
    (h : (items.mapM f).Gives depth s results t) :
    Steps (fun u x v => ∃ b, (f x).Gives depth u b v) s items t := by
  induction items generalizing s results with
  | nil =>
    rw [List.mapM_nil] at h
    obtain ⟨-, rfl⟩ := (gives_pure _ _).1 h
    exact .nil _
  | cons x items ih =>
    simp only [List.mapM_cons, gives_bind, gives_pure] at h
    obtain ⟨b, u, hx, others, v, hothers, -, rfl⟩ := h
    exact .cons ⟨b, hx⟩ (ih hothers)

end Loops

/-! ### Names -/

theorem translates_of_marked
    {u : State} {name : String} {exported : Bool} (hname : identifier.Gives depth s name u)
    (hmark : (accept (.sign .asterisk)).Gives depth u exported t) :
    s.Translates (⟨name, exported⟩ : Marked).spelling "" t := by
  rw [gives_identifier_iff] at hname
  obtain ⟨htaken, rfl⟩ | ⟨-, rfl, rfl⟩ := (gives_accept_sign_iff _ _).1 hmark
  · exact hname.trans htaken
  · exact hname

/-- A constant behind its value. -/
theorem binds_of_constant
    {words : List Word}
    {text : String}
    {c : Constant}
    {index : Nat}
    {rest : Action α}
    {a : α}
    {v : State}
    [Uses steady rest]
    (hwords : s.Translates words text u)
    (hdeclare : (declare c.name.name .constant c.value.literal.kind.type).Gives depth u index v)
    (hrest : rest.Gives depth v a t)
    (htypes : t.types.Extends s.types)
    (hmodule : t.moduleName = s.moduleName) :
    s.Binds [.constant c] t := by
  obtain ⟨symbols, hadd, rfl⟩ := (gives_declare _ _ _ index).1 hdeclare
  obtain ⟨hsymbols, hscope⟩ := hrest.steady
  refine ⟨hscope.trans hwords.scope_eq, hmodule, htypes, fun old hold => ?_⟩
  rw [← hwords.context_eq] at hold
  refine ⟨_, ?_, .cons rfl .nil⟩
  rw [show t.context.symbols = symbols from hsymbols]
  exact (SymbolTable.Lists.add hold hadd).2

/-! ### Variables and parameters -/

theorem enters_of_separator
    {kind : Named → Symbol.Kind}
    {again : Bool}
    (h : (accept (.sign .comma)).Gives depth s again t) :
    s.Enters kind [] t := by
  obtain ⟨htaken, -⟩ | ⟨-, rfl, -⟩ := (gives_accept_sign_iff _ _).1 h
  · exact .of_eq htaken.scope_eq htaken.moduleName_eq htaken.symbols_eq
  · exact .of_eq rfl rfl rfl

/-- A name that is declared behind a passage. -/
theorem enters_of_declare
    (kind : Named → Symbol.Kind)
    {words : List Word}
    {text : String}
    {v : Named}
    (hwords : s.Translates words text u)
    (h : (declare v.name (kind v) .unknown).Gives depth u v.index t) :
    s.Enters kind [v] t := by
  obtain ⟨symbols, hadd, rfl⟩ := (gives_declare v.name (kind v) .unknown v.index).1 h
  exact (State.Enters.of_eq hwords.scope_eq hwords.moduleName_eq hwords.symbols_eq).trans
    (.of_declare hadd)

/-- Entering a type and what follows it. -/
theorem typing_of_setType
    {type : DataType} {v : Named} {f : Unit → Action α} {a : α} (hf : Uses steady (f ()))
    (h : (setType v.index type >>= f).Gives depth s a t) :
    s.symbols.setType v.index type = .ok t.symbols ∧ t.scope = s.scope := by
  obtain ⟨_, u, htype, hrest⟩ := (gives_bind _ _ _).1 h
  obtain ⟨symbols, hset, rfl⟩ := (gives_setType v.index type ()).1 htype
  obtain ⟨hsymbols, hscope⟩ := hrest.steady
  exact ⟨by rw [hsymbols]; exact hset, hscope⟩

theorem enters_of_variableName {v : Named} (h : variableName.Gives depth s v t) :
    s.Enters (fun v => .variable v.exported) [v] t := by
  unfold variableName at h
  simp only [gives_bind, gives_scope, gives_ite, gives_pure] at h
  obtain ⟨name, s₁, hname, exported, s₂, hmark, _, s₃, ⟨rfl, rfl⟩, ⟨-, _, _, h, -⟩ |
    ⟨-, _, s₄, hfresh, index, s₅, hdeclare, rfl, rfl⟩⟩ := h
  · exact absurd h (gives_reject _ _)
  · obtain rfl := eq_of_requireFresh hfresh
    exact enters_of_declare (fun v => .variable v.exported) (translates_of_marked hname hmark)
      hdeclare

theorem enters_of_parameterName {v : Named} (h : parameterName.Gives depth s v t) :
    s.Enters (fun _ => .parameter) [v] t := by
  unfold parameterName at h
  simp only [gives_bind, gives_identifier_iff, gives_pure] at h
  obtain ⟨name, s₁, hname, _, s₂, hfresh, index, s₃, hdeclare, rfl, rfl⟩ := h
  obtain rfl := eq_of_requireFresh hfresh
  exact enters_of_declare (fun _ => .parameter) hname hdeclare

theorem typing_of_variableOf
    {d : Declarator}
    {v : Named}
    {a : Unit}
    (h : (variableOf d v).Gives depth s a t) :
    s.symbols.setType v.index d.type = .ok t.symbols ∧ t.scope = s.scope := by
  refine typing_of_setType (.bind fun _ => .bind fun _ => ?_) h
  split <;> infer_instance

theorem typing_of_parameterOf
    {d : Declarator}
    {v : Named}
    {found : DataType × String}
    (h : (parameterOf d v).Gives depth s found t) :
    s.symbols.setType v.index d.type = .ok t.symbols ∧ t.scope = s.scope :=
  typing_of_setType inferInstance h

/--
Names are entered, their type is read, and they get it.  The bindings are those of the names with
that type.
-/
theorem binds_of_names
    {kind : Named → Symbol.Kind}
    {names : List Named}
    (type : DataType)
    {bindings : List Binding}
    {v : State}
    (hnames : s.Enters kind names u)
    (hread : v.symbols = u.symbols ∧ v.scope = u.scope)
    (htyping : Steps (fun a x b => a.symbols.setType x.index type = .ok b.symbols ∧
      b.scope = a.scope) v names t)
    (hmodule : t.moduleName = s.moduleName)
    (htypes : t.types.Extends s.types)
    (hbindings : List.Forall₂ (Binding.Enters t.types) bindings
      (names.map (Named.entry kind type))) :
    s.Binds bindings t := by
  have hscope := htyping.keeps (f := State.scope) fun _ _ _ h => h.2
  refine ⟨hscope.trans (hread.2.trans hnames.scope), hmodule, htypes, fun old hold => ?_⟩
  obtain ⟨hlists, hindices⟩ := hnames.entries old hold
  have hsets : State.Typing type v names t := htyping.imp fun _ _ _ h => h.1
  exact ⟨_, hsets.lists (by rw [hread.1]; exact hlists) hindices, hbindings⟩

/-! ### Procedures -/

/-- The signature of a procedure is entered in its place. -/
theorem lists_of_setSignature
    {index : Nat}
    {exported : Bool}
    {parameters : List DataType}
    {result : DataType}
    {a : Unit}
    {old new : List Entry}
    {e : Entry}
    (hlists : s.symbols.Lists (old ++ e :: new))
    (hindex : index = old.length)
    (h : (ask (.setSignature index exported parameters result) done).Gives depth s a t) :
    t.symbols.Lists (old ++ ⟨e.name, .procedure exported parameters, result⟩ :: new) ∧
    t.types = s.types ∧
    t.scope.result = result := by
  obtain ⟨symbols, hset, rfl⟩ := (gives_setSignature index exported parameters result a).1 h
  refine ⟨?_, rfl, rfl⟩
  have hupdated :=
    hlists.update (f := fun e => { e with kind := .procedure exported parameters, type := result })
      (fun _ => rfl)
    (fun _ _ => rfl) hset
  rw [hindex] at hupdated
  simpa [List.modify_eq_take_cons_drop] using hupdated

/--
A heading is entered: its parameters behind the name of the procedure, and then the signature with
that name.
-/
theorem exists_entry_of_heading
    {heading : Heading}
    {entry : Nat}
    {parameters : List DataType}
    {result : DataType}
    {a : Unit}
    {v w : State}
    {old : List Entry}
    {raw : Entry}
    (hbinds : s.Binds heading.bindings u)
    (hread : v.symbols = u.symbols)
    (hset :
      (ask (.setSignature entry heading.name.exported parameters result) done).Gives depth v a w)
    (hend : t.symbols = w.symbols)
    (hgrown : t.types.Extends u.types)
    (hparameters : Heading.ParametersHave t.types (heading.parameters.getD []) parameters)
    (hresult : Heading.ResultHas t.types heading.result result)
    (hraw : s.symbols.Lists (old ++ [raw]))
    (hname : raw.name = heading.name.name)
    (hentry : entry = old.length) :
    ∃ e new,
      t.symbols.Lists (old ++ e :: new) ∧
      Binding.Enters t.types (.procedure heading) e ∧
      List.Forall₂ (Binding.Enters t.types) heading.bindings new := by
  obtain ⟨new, hnew, hentered⟩ := hbinds.context.entries _ hraw
  rw [List.append_assoc, List.singleton_append] at hnew
  have hread' : v.symbols.Lists (old ++ raw :: new) := hread ▸ hnew
  obtain ⟨hlists, -, -⟩ := lists_of_setSignature hread' hentry hset
  refine ⟨⟨raw.name, .procedure heading.name.exported parameters, result⟩, new, hend ▸ hlists, ?_,
    ?_⟩
  · exact ⟨hname, ⟨parameters, rfl, hparameters⟩, hresult⟩
  · exact hentered.imp fun _ _ => .mono hgrown

/-- A procedure is declared without a signature. -/
theorem entered_of_procedureName
    {words : List Word}
    {text name : String}
    {exported : Bool}
    {index : Nat}
    (hwords : s.Translates words text u)
    (h : (declare name (.procedure exported []) .unknown).Gives depth u index t) :
    t.types = s.types ∧
    t.scope = s.scope ∧
    ∀ old, s.context.symbols.Lists old →
      index = old.length ∧ t.symbols.Lists (old ++ [⟨name, .procedure exported [], .unknown⟩]) := by
  obtain ⟨symbols, hadd, rfl⟩ := (gives_declare name _ .unknown index).1 h
  refine ⟨hwords.types_eq, hwords.scope_eq, fun old hold => ?_⟩
  rw [← hwords.context_eq] at hold
  exact SymbolTable.Lists.add hold hadd

/-- Behind a procedure its own entry is left, as its header has completed it. -/
theorem lists_of_release
    {inside outside around : SymbolTable}
    {old more : List Entry}
    {raw e : Entry}
    (hraw : around.Lists (old ++ [raw]))
    (hname : e.name = raw.name)
    (hinside : inside.Lists (old ++ e :: more))
    (hrelease : inside.release around.mark = .ok () outside) :
    outside.Lists (old ++ [e]) := by
  have hall : inside.Lists (old ++ [e] ++ more) := by simpa using hinside
  have hbuffer : Entry.buffer (old ++ [raw]) = Entry.buffer (old ++ [e]) := by
    simp [Entry.buffer, hname]
  have hcount : around.mark.entries = (old ++ [e]).length := by simp [hraw.mark_eq]
  obtain ⟨released, hreleased, hlists⟩ := hall.exists_release hcount (by rw [hraw.mark_eq, hbuffer])
  rw [hrelease] at hreleased
  cases hreleased
  exact hlists

/-- Of the names that are bound inside a procedure only its own is bound behind it. -/
theorem binds_of_release
    {c d e : Context}
    {heading : Heading}
    {inner : List Binding}
    {around : SymbolTable}
    (hinside : c.Binds (.procedure heading :: inner) d)
    (hraw : ∀ old, c.symbols.Lists old →
      ∃ raw, around.Lists (old ++ [raw]) ∧ raw.name = heading.name.name)
    (hrelease : d.symbols.release around.mark = .ok () e.symbols)
    (htypes : e.types = d.types)
    (hmodule : e.moduleName = c.moduleName) :
    c.Binds [.procedure heading] e := by
  refine ⟨hmodule, htypes ▸ hinside.types, fun old hold => ?_⟩
  obtain ⟨raw, hraw, hname⟩ := hraw old hold
  obtain ⟨new, hnew, hentered⟩ := hinside.entries old hold
  cases hentered with
  | @cons _ entry _ _ hentry _ =>
    exact ⟨[entry], lists_of_release hraw (hentry.1.trans hname.symm) hnew hrelease,
      .cons (htypes ▸ hentry) .nil⟩

end Compilation
end Oberon
