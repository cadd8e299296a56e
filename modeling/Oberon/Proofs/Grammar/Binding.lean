import Oberon.Proofs.Grammar.Declaration
import Oberon.Proofs.Target.Legible

/-!
# Bindings and checked modules

What names are bound to by the declarations of a module, and the rules by which a module is checked.

**Bindings.**  A declaration binds a name: to a constant, a variable or a parameter of a type, or to
a procedure with the types of its heading.  `c.Binds bindings d` says that the context `d` is `c`
with one entry more for each binding, in order; the types that are bound are among those of `d`.

**Checked modules.**  A section of a module takes one context to another (`Section.Checked`).  The
statements of a procedure are well formed among the names of the module so far, the procedure
itself, its parameters and its local variables, and return values of the type that the heading
names.  The statements of the module are well formed behind all its sections (`Module.Checked`).
-/

namespace Oberon
namespace Grammar

/-- A name that is declared, with what is said of it. -/
inductive Binding
  | constant (constant : Constant)
  | variable (name : Marked) (type : TypeExpression)
  | procedure (heading : Heading)
  | parameter (name : String) (type : TypeExpression)

namespace Binding

/-- The entry of the symbol table for a binding, with types of a catalog. -/
def Enters (c : TypeCatalog) : Binding → Entry → Prop
  | constant k, e => e = ⟨k.name.name, .constant, k.value.literal.kind.type⟩
  | .variable v type, e => e.name = v.name ∧ e.kind = .variable v.exported ∧ type.Denotes c e.type
  | procedure h, e =>
      e.name = h.name.name ∧ (∃ parameters, e.kind = .procedure h.name.exported parameters ∧
        Heading.ParametersHave c (h.parameters.getD []) parameters) ∧
          Heading.ResultHas c h.result e.type
  | parameter name type, e => e.name = name ∧ e.kind = .parameter ∧ type.Denotes c e.type

theorem Enters.mono
    {c d : TypeCatalog}
    {binding : Binding}
    {e : Entry}
    (hgrown : c.Extends d)
    (h : binding.Enters d e) :
    binding.Enters c e := by
  cases binding with
  | constant k => exact h
  | «variable» v type => exact ⟨h.1, h.2.1, h.2.2.mono hgrown⟩
  | procedure heading =>
    obtain ⟨hname, ⟨parameters, hkind, hparameters⟩, hresult⟩ := h
    exact ⟨hname, ⟨parameters, hkind, hparameters.mono hgrown⟩, hresult.mono hgrown⟩
  | parameter name type => exact ⟨h.1, h.2.1, h.2.2.mono hgrown⟩

end Binding

/-- The context `d` is `c` with one entry more for each binding, in order, and with more types. -/
structure Context.Binds (c : Context) (bindings : List Binding) (d : Context) : Prop where
  moduleName : d.moduleName = c.moduleName
  types : d.types.Extends c.types
  entries : ∀ old, c.symbols.Lists old → ∃ new, d.symbols.Lists (old ++ new) ∧
    List.Forall₂ (Binding.Enters d.types) bindings new

namespace Context.Binds

variable {c d e : Context} {bindings others : List Binding}

theorem refl (c : Context) : c.Binds [] c :=
  ⟨rfl, .refl _, fun old hold => ⟨[], by rwa [List.append_nil], .nil⟩⟩

theorem trans (h : c.Binds bindings d) (h' : d.Binds others e) :
    c.Binds (bindings ++ others) e where
  moduleName := h'.moduleName.trans h.moduleName
  types := h'.types.trans h.types
  entries old hold := by
    obtain ⟨new, hnew, hbindings⟩ := h.entries old hold
    obtain ⟨more, hmore, hothers⟩ := h'.entries _ hnew
    refine ⟨new ++ more, by rwa [← List.append_assoc], ?_⟩
    exact List.rel_append (hbindings.imp fun _ _ => .mono h'.types) hothers

theorem of_steps
    {ι : Type}
    {names : ι → List Binding}
    {xs : List ι}
    (h : Steps (fun c x d => c.Binds (names x) d) c xs d) :
    c.Binds (xs.flatMap names) d := by
  induction h with
  | nil c => exact .refl c
  | cons hstep _ ih => exact hstep.trans ih

end Context.Binds

/-! ### What declarations bind -/

def VariableGroup.bindings (g : VariableGroup) :
    List Binding :=
  g.names.map fun v => .variable v g.type

def ParameterGroup.bindings (g : ParameterGroup) :
    List Binding :=
  g.names.map fun name => .parameter name g.type

/-- The parameters of a procedure. -/
def Heading.bindings (h : Heading) :
    List Binding :=
  (h.parameters.getD []).flatMap ParameterGroup.bindings

/-- What a procedure binds for its statements: itself, its parameters and its local variables. -/
def Procedure.bindings (p : Procedure) : List Binding :=
  .procedure p.heading :: p.heading.bindings ++ p.locals.flatMap fun groups =>
    groups.flatMap VariableGroup.bindings

/-- What a section binds for what follows. -/
def Section.bindings : Section → List Binding
  | constants list => list.map .constant
  | variableGroups groups => groups.flatMap VariableGroup.bindings
  | procedure p => [.procedure p.heading]

/-! ### Checked modules -/

/--
The names of a block are legible and refer to known modules only, and its statements are well
formed.
-/
structure Block.Checked
    (module : String)
    (known : String → String → Prop)
    (result : DataType)
    (b : Block) :
    Prop where
  legible : b.around.Legible
  refers : b.around.RefersOnly module known
  wellFormed : BodyWellFormed b.around result b.body

/-- The statements of a procedure that is declared in a context. -/
def Procedure.Checked
    (module : String)
    (known : String → String → Prop)
    (c : Context)
    (p : Procedure) :
    Prop :=
  ∀ b ∈ p.block.toList, c.Binds p.bindings b.around ∧
    ∃ result, Heading.ResultHas b.around.types p.heading.result result ∧
      b.Checked module known result

/-- The section is checked in the context `c`, and leaves the context `d` to what follows. -/
structure Section.Checked
    (module : String)
    (known : String → String → Prop)
    (c : Context)
    (part : Section)
    (d : Context) :
    Prop where
  binds : c.Binds part.bindings d
  procedures : ∀ p, part = .procedure p → p.Checked module known c

/--
The entries in front of what a module declares: the reserved words, the module itself and its
imports.
-/
def Module.frontEntries (m : Module) : List (String × Symbol.Kind) :=
  reservedEntries ++ (m.name, .thisModule) :: m.allImports.flatMap Import.entries

/-- The context behind the imports of a module. -/
structure Module.Opens (m : Module) (c : Context) : Prop where
  moduleName : c.moduleName = m.name
  types : c.types.Extends .builtin
  entries : c.symbols.Shows Symbol.Kind.outline m.frontEntries

/--
The module is checked: its sections one behind the other, and its statements behind all of them.
-/
def Module.Checked (m : Module) : Prop :=
  ∃ first last, m.Opens first ∧
    Steps (fun c part d => Section.Checked m.name
      (fun called real => (called, real) ∈ m.modules) c part d) first m.sections last ∧
    ∀ b ∈ m.block.toList, b.around = last ∧
      b.Checked m.name (fun called real => (called, real) ∈ m.modules) .unknown

section Mono

variable
  {module : String} {known more : String → String → Prop}
  (hmore : ∀ called real, known called real → more called real)
include hmore

theorem Block.Checked.mono
    {result : DataType} {b : Block} (h : b.Checked module known result) :
    b.Checked module more result :=
  ⟨h.legible, h.refers.mono hmore, h.wellFormed⟩

theorem Section.Checked.mono {c d : Context} {part : Section} (h : part.Checked module known c d) :
    part.Checked module more c d := by
  refine ⟨h.binds, fun p hp b hb => ?_⟩
  obtain ⟨hbinds, result, hresult, hchecked⟩ := h.procedures p hp b hb
  exact ⟨hbinds, result, hresult, hchecked.mono hmore⟩

end Mono

/-- The blocks of checked sections are checked. -/
theorem Section.Checked.blocks
    {module : String} {known : String → String → Prop} {c d : Context} {sections : List Section}
    (h : Steps (fun c part d => part.Checked module known c d) c sections d) :
    ∀ b ∈ sections.flatMap Section.blocks, b.around.Legible ∧ b.around.RefersOnly module known := by
  induction h with
  | nil c => simp
  | @cons c d u part parts hpart _ ih =>
    intro b hb
    rw [List.flatMap_cons] at hb
    obtain hb | hb := List.mem_append.1 hb
    · cases part with
      | procedure p =>
        obtain ⟨-, _, -, hchecked⟩ := hpart.procedures p rfl b hb
        exact ⟨hchecked.legible, hchecked.refers⟩
      | _ => cases hb
    · exact ih b hb

/-- The blocks of a checked module are legible and refer to the modules that it knows. -/
theorem Module.Checked.blocks {m : Module} (h : m.Checked) :
    ∀ b ∈ m.blocks,
      b.around.Legible ∧
      b.around.RefersOnly m.name fun called real => (called, real) ∈ m.modules := by
  obtain ⟨first, last, -, hsections, hblock⟩ := h
  intro b hb
  obtain hb | hb := List.mem_append.1 hb
  · exact Section.Checked.blocks hsections b hb
  · obtain ⟨-, hchecked⟩ := hblock b hb
    exact ⟨hchecked.legible, hchecked.refers⟩

end Grammar
end Oberon
