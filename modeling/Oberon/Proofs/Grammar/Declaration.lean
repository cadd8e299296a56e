import Oberon.Proofs.Grammar.Statement
import Oberon.Proofs.Trace

/-!
# The grammar of declarations

Types, declarations and whole modules as syntax trees, with their spelling in a source and their
texts in the two units of the compiled module.

    type      := ARRAY size OF element | element
    element   := POINTER [TO basic] | PROCEDURE | basic
    basic     := built-in type | [module .] name
    constant  := name [*] = [-] literal ;
    variables := name [*] {, name [*]} : type ;
    procedure := name [*] [( [names : type {; names : type}] )] [: type] ;
                 {VAR {variables}} [BEGIN body] END name ;
    section   := CONST {constant} | VAR {variables} | PROCEDURE procedure
    module    := MODULE name ; {IMPORT imports ;} {section} [BEGIN body] END name .

**Items.**  What a module declares is flattened into items, one for each declared name.  An exported
item has one line in the interface.  Variables and procedures have a definition in the
implementation, which is `static` unless the item is exported.

A member of a module stands together with the module that it was found in, and statements with what
is declared around them.
-/

namespace Oberon
namespace Grammar

/-- Phrases of one kind, each with a sign in front. -/
def behindSign {ι : Type} (sign : Sign) (spelling : ι → List Word) (phrases : List ι) : List Word :=
  phrases.flatMap fun phrase => .sign sign :: spelling phrase

/-! ### Types -/

/-- A member of a module, with the name that the module goes by in the source. -/
structure Qualified where
  called : String
  module : String
  name : String
  deriving DecidableEq, Repr

namespace Qualified

def spelling (q : Qualified) : List Word := [.identifier q.called, .sign .dot, .identifier q.name]

def text (q : Qualified) : String := Target.mangle q.module q.name

/-- The module behind the name that it goes by. -/
def named (q : Qualified) : String × String := (q.called, q.module)

end Qualified

inductive BasicType
  | builtin (word : { word : Keyword // (Target.builtinType? word).isSome })
  | undeclared (name : String)
  | member (member : Qualified)

namespace BasicType

def spelling : BasicType → List Word
  | builtin word => [.keyword word.1]
  | undeclared name => [.identifier name]
  | member q => q.spelling

def text : BasicType → String
  | builtin word => (Target.builtinType? word.1).get word.2
  | undeclared name => name
  | member q => q.text

def members : BasicType → List Qualified
  | member q => [q]
  | _ => []

/-- The type that is meant; nothing is known of the members of a module and of undeclared names. -/
def type : BasicType → DataType
  | builtin word => .ofKeyword word.1
  | undeclared _ => .unknown
  | member _ => .unknown

end BasicType

inductive ElementType
  | pointer (base : Option BasicType)
  | procedure
  | basic (type : BasicType)

namespace ElementType

def spelling : ElementType → List Word
  | pointer none => [.keyword .POINTER]
  | pointer (some base) => .keyword .POINTER :: .keyword .TO :: base.spelling
  | procedure => [.keyword .PROCEDURE]
  | basic type => type.spelling

/-- The text in front of a name of the type. -/
def left : ElementType → String
  | pointer none => "void *"
  | pointer (some base) => base.text ++ " *"
  | procedure => "void (*"
  | basic type => type.text

/-- The text behind a name of the type. -/
def right : ElementType → String
  | procedure => ")()"
  | _ => ""

def members : ElementType → List Qualified
  | pointer (some base) => base.members
  | basic type => type.members
  | _ => []

/-- Among the types of a catalog, the one that is meant: a pointer has a type of its own. -/
def Denotes (c : TypeCatalog) : ElementType → DataType → Prop
  | pointer none, t => c.shapes[t.number]? = some ⟨.pointer, .unknown, 0⟩
  | pointer (some base), t => c.shapes[t.number]? = some ⟨.pointer, base.type, 0⟩
  | procedure, t => t = .procedure
  | basic type, t => t = type.type

theorem Denotes.mono
    {c d : TypeCatalog}
    {type : ElementType}
    {t : DataType}
    (hgrown : c.Extends d)
    (h : type.Denotes d t) :
    type.Denotes c t := by
  match type with
  | .pointer none => exact hgrown.getElem? h
  | .pointer (some base) => exact hgrown.getElem? h
  | .procedure => exact h
  | .basic _ => exact h

end ElementType

/-- The size of an array; a name without a module is a constant of the module that is compiled. -/
inductive ArraySize
  | literal (lexeme : String)
  | constant (name : String)
  | member (member : Qualified)

namespace ArraySize

def spelling : ArraySize → List Word
  | literal lexeme => [(.number .integer, lexeme)]
  | constant name => [.identifier name]
  | member q => q.spelling

def text (module : String) : ArraySize → String
  | literal lexeme => lexeme
  | constant name => Target.mangle module name
  | member q => q.text

def members : ArraySize → List Qualified
  | member q => [q]
  | _ => []

/-- The number of elements, where it is known. -/
def length : ArraySize → Nat
  | literal lexeme => Magnitude.arrayLength lexeme
  | _ => 0

end ArraySize

inductive TypeExpression
  | array (size : ArraySize) (elements : ElementType)
  | plain (type : ElementType)

namespace TypeExpression

def spelling : TypeExpression → List Word
  | array size elements => .keyword .ARRAY :: size.spelling ++ .keyword .OF :: elements.spelling
  | plain type => type.spelling

def left : TypeExpression → String
  | array _ elements => elements.left
  | plain type => type.left

def right (module : String) : TypeExpression → String
  | array size elements => "[" ++ size.text module ++ "]" ++ elements.right
  | plain type => type.right

/-- The declarator of a name of a module with the type. -/
def declarator (type : TypeExpression) (module name : String) : String :=
  Target.declaration type.left module name (type.right module)

def members : TypeExpression → List Qualified
  | array size elements => size.members ++ elements.members
  | plain type => type.members

/--
Among the types of a catalog, the one that is meant: an array has a type of its own, made of the
type of its elements.
-/
def Denotes (c : TypeCatalog) : TypeExpression → DataType → Prop
  | array size elements, t =>
      ∃ element, elements.Denotes c element ∧
        c.shapes[t.number]? = some ⟨.array, element, size.length⟩
  | plain type, t => type.Denotes c t

theorem Denotes.mono
    {c d : TypeCatalog}
    {type : TypeExpression}
    {t : DataType}
    (hgrown : c.Extends d)
    (h : type.Denotes d t) :
    type.Denotes c t := by
  cases type with
  | array size elements =>
    obtain ⟨element, helement, hshape⟩ := h
    exact ⟨element, helement.mono hgrown, hgrown.getElem? hshape⟩
  | plain type => exact ElementType.Denotes.mono hgrown h

end TypeExpression

/-! ### Declarations -/

/-- A name with or without an export mark. -/
structure Marked where
  name : String
  exported : Bool
  deriving DecidableEq, Repr

def Marked.spelling (m : Marked) : List Word :=
  .identifier m.name :: if m.exported then [.sign .asterisk] else []

/-- The value of a constant; only integers and reals have a sign. -/
structure ConstantValue where
  negated : Bool
  literal : Literal
  signed : negated = true → literal.kind = .number .integer ∨ literal.kind = .number .real

namespace ConstantValue

def spelling (v : ConstantValue) : List Word :=
  (if v.negated then [.sign .minus] else []) ++ [v.literal.word]

def text (v : ConstantValue) : String :=
  if v.negated then "(-" ++ v.literal.lexeme ++ ")" else v.literal.lexeme

end ConstantValue

structure Constant where
  name : Marked
  value : ConstantValue

namespace Constant

def spelling (c : Constant) : List Word :=
  c.name.spelling ++ .sign .equal :: c.value.spelling ++ [.sign .semicolon]

/-- The line that defines the constant of a module. -/
def line (module : String) (c : Constant) : String :=
  Target.constantLine module c.name.name c.value.text

end Constant

/-- Variables that share a type. -/
structure VariableGroup where
  first : Marked
  others : List Marked
  type : TypeExpression

namespace VariableGroup

def names (g : VariableGroup) : List Marked := g.first :: g.others

def spelling (g : VariableGroup) : List Word :=
  g.first.spelling ++ behindSign .comma Marked.spelling g.others ++
    .sign .colon :: g.type.spelling ++ [.sign .semicolon]

/-- The text of the group as local variables of a procedure. -/
def localText (module : String) (g : VariableGroup) : String :=
  String.join (g.names.map fun v => g.type.declarator module v.name ++ ";\n")

end VariableGroup

/-- Parameters that share a type. -/
structure ParameterGroup where
  first : String
  others : List String
  type : TypeExpression

namespace ParameterGroup

def names (g : ParameterGroup) : List String := g.first :: g.others

def spelling (g : ParameterGroup) : List Word :=
  .identifier g.first :: behindSign .comma (fun name => [.identifier name]) g.others ++
    .sign .colon :: g.type.spelling

def declarators (module : String) (g : ParameterGroup) : List String :=
  g.names.map (g.type.declarator module)

/-- One type for each name, all of them the type that the group has. -/
def HasTypes (c : TypeCatalog) (g : ParameterGroup) (types : List DataType) : Prop :=
  ∃ type, g.type.Denotes c type ∧ types = g.names.map fun _ => type

theorem HasTypes.mono
    {c d : TypeCatalog}
    {g : ParameterGroup}
    {types : List DataType}
    (hgrown : c.Extends d)
    (h : g.HasTypes d types) :
    g.HasTypes c types := by
  obtain ⟨type, htype, rfl⟩ := h
  exact ⟨type, htype.mono hgrown, rfl⟩

end ParameterGroup

/--
Names are written behind `module`, or as members behind a module that is `known` by what stands in
front of the point.
-/
def Context.RefersOnly (c : Context) (module : String) (known : String → String → Prop) : Prop :=
  ∀ name, c.owner name = module ∨ ∃ called own, name = .member called own ∧
    known called (c.owner name)

theorem Context.RefersOnly.mono
    {c : Context}
    {module : String}
    {known more : String → String → Prop}
    (h : c.RefersOnly module known)
    (hmore : ∀ called real, known called real → more called real) :
    c.RefersOnly module more := by
  intro name
  obtain hown | ⟨called, own, rfl, hknown⟩ := h name
  · exact Or.inl hown
  · exact Or.inr ⟨called, own, rfl, hmore _ _ hknown⟩

/-- Statements between `BEGIN` and `END`, with what is declared around them. -/
structure Block where
  body : Body
  around : Context

/-- The words of a block that may be missing. -/
def blockSpelling : Option Block → List Word
  | none => []
  | some block => .keyword .BEGIN :: bodySpelling block.body

def blockText : Option Block → String
  | none => ""
  | some block => bodyText block.around block.body

/-- The first line of a procedure. -/
structure Heading where
  name : Marked
  /-- The groups between parentheses, which may be missing. -/
  parameters : Option (List ParameterGroup)
  result : Option TypeExpression

namespace Heading

def parametersSpelling : Option (List ParameterGroup) → List Word
  | none => []
  | some [] => [.sign .openParen, .sign .closeParen]
  | some (first :: others) =>
      .sign .openParen :: first.spelling ++ behindSign .semicolon ParameterGroup.spelling others ++
        [.sign .closeParen]

def resultSpelling : Option TypeExpression → List Word
  | none => []
  | some type => .sign .colon :: type.spelling

/-- The words behind the name. -/
def rest (h : Heading) : List Word :=
  parametersSpelling h.parameters ++ resultSpelling h.result ++ [.sign .semicolon]

/-- The declarators of the parameters; C writes `void` if there are none. -/
def parametersText (module : String) (h : Heading) : String :=
  let declarators := (h.parameters.getD []).flatMap (ParameterGroup.declarators module)
  if declarators.isEmpty then "void" else ", ".intercalate declarators

/-- The C signature of the procedure. -/
def signature (module : String) (h : Heading) : String :=
  h.result.elim "void" TypeExpression.left ++ " " ++ Target.mangle module h.name.name ++
    "(" ++ h.parametersText module ++ ")" ++ h.result.elim "" (TypeExpression.right module)

/-- The types of the parameters and of the result. -/
def types (h : Heading) : List TypeExpression :=
  (h.parameters.getD []).map ParameterGroup.type ++ h.result.toList

/-- One type for each parameter, in order. -/
def ParametersHave
    (c : TypeCatalog) (groups : List ParameterGroup) (types : List DataType) :
    Prop :=
  ∃ parts, List.Forall₂ (ParameterGroup.HasTypes c) groups parts ∧ types = parts.flatten

/-- The type of the result, which is unknown if there is none. -/
def ResultHas (c : TypeCatalog) : Option TypeExpression → DataType → Prop
  | none, t => t = .unknown
  | some type, t => type.Denotes c t

theorem ParametersHave.mono
    {c d : TypeCatalog}
    {groups : List ParameterGroup}
    {types : List DataType}
    (hgrown : c.Extends d)
    (h : ParametersHave d groups types) :
    ParametersHave c groups types := by
  obtain ⟨parts, hparts, rfl⟩ := h
  exact ⟨parts, hparts.imp fun _ _ => .mono hgrown, rfl⟩

theorem ResultHas.mono
    {c d : TypeCatalog}
    {result : Option TypeExpression}
    {t : DataType}
    (hgrown : c.Extends d)
    (h : ResultHas d result t) :
    ResultHas c result t := by
  cases result with
  | none => exact h
  | some type => exact TypeExpression.Denotes.mono hgrown h

end Heading

structure Procedure where
  heading : Heading
  /-- The groups of each list of local variables. -/
  locals : List (List VariableGroup)
  block : Option Block

namespace Procedure

def localsSpelling (locals : List (List VariableGroup)) : List Word :=
  locals.flatMap fun groups => .keyword .VAR :: groups.flatMap VariableGroup.spelling

def spelling (p : Procedure) : List Word :=
  p.heading.name.spelling ++ p.heading.rest ++ localsSpelling p.locals ++ blockSpelling p.block ++
    [.keyword .END, .identifier p.heading.name.name, .sign .semicolon]

def localsText (module : String) (locals : List (List VariableGroup)) : String :=
  String.join (locals.map fun groups => String.join (groups.map (VariableGroup.localText module)))

/-- The types of the heading and of the local variables. -/
def types (p : Procedure) : List TypeExpression :=
  p.heading.types ++ p.locals.flatMap fun groups => groups.map VariableGroup.type

end Procedure

/-- Declarations behind one keyword. -/
inductive Section
  | constants (list : List Constant)
  | variableGroups (groups : List VariableGroup)
  | procedure (procedure : Procedure)

def Section.spelling : Section → List Word
  | constants list => .keyword .CONST :: list.flatMap Constant.spelling
  | variableGroups groups => .keyword .VAR :: groups.flatMap VariableGroup.spelling
  | procedure p => .keyword .PROCEDURE :: p.spelling

def Section.types : Section → List TypeExpression
  | constants _ => []
  | variableGroups groups => groups.map VariableGroup.type
  | procedure p => p.types

/-- The modules that types name, each behind the name that it goes by. -/
def modulesNamed (types : List TypeExpression) : List (String × String) :=
  (types.flatMap TypeExpression.members).map Qualified.named

/-! ### Items -/

/-- A name that a module declares; the body of a procedure is its text in C. -/
inductive Item
  | constant (constant : Constant)
  | variable (name : Marked) (type : TypeExpression)
  | procedure (heading : Heading) (body : String)

namespace Item

def name : Item → Marked
  | constant c => c.name
  | .variable name _ => name
  | procedure heading _ => heading.name

def exported (item : Item) : Bool := item.name.exported

/-- Constants are defined for the preprocessor; other items have a linkage. -/
def linked : Item → Bool
  | constant _ => false
  | _ => true

/-- The line of an exported item in the interface of a module. -/
def interfaceLine (module : String) : Item → String
  | constant c => c.line module
  | .variable name type => "extern " ++ type.declarator module name.name ++ ";\n"
  | procedure heading _ => "extern " ++ heading.signature module ++ ";\n"

/-- What keeps a definition inside its unit, unless its name is exported. -/
def linkage (name : Marked) : String :=
  if name.exported then "" else "static "

/--
The text of an item in the implementation of a module; an exported constant is defined in the
interface.
-/
def definition (module : String) : Item → String
  | constant c => if c.name.exported then "" else c.line module
  | .variable name type => linkage name ++ type.declarator module name.name ++ ";\n"
  | procedure heading body =>
    "\n" ++ linkage heading.name ++ heading.signature module ++ " \x7b\n" ++ body ++ "\x7d\n"

/-- The entry of an item in the symbol table, without types. -/
def entry : Item → String × Symbol.Kind
  | constant c => (c.name.name, .constant)
  | .variable name _ => (name.name, .variable name.exported)
  | procedure heading _ => (heading.name.name, .procedure heading.name.exported [])

theorem exported_entry (item : Item) : item.entry.2.exported = (item.linked && item.exported) := by
  cases item <;> rfl

/-- The texts of items behind each other. -/
def texts (module : String) (items : List Item) : Trace where
  code := String.join (items.map (definition module))
  published := String.join ((items.filter exported).map (interfaceLine module))

/-- What the declaration of items by some words leaves. -/
def trace
    (module : String)
    (words : List Word)
    (types : List TypeExpression)
    (items : List Item) :
    Trace :=
  { words, added := items.map entry, named := modulesNamed types } ++ texts module items

@[simp] theorem added_trace
    (module : String)
    (words : List Word)
    (types : List TypeExpression)
    (items : List Item) :
    (trace module words types items).added = items.map entry :=
  List.append_nil _

theorem texts_singleton (module : String) (item : Item) :
    texts module [item] = {
      code := item.definition module, published :=
        if item.exported then item.interfaceLine module else "" } := by
  cases hexported : item.exported <;> simp [texts, hexported]

theorem texts_cons (module : String) (item : Item) (items : List Item) :
    texts module (item :: items) = texts module [item] ++ texts module items := by
  cases hexported : item.exported <;> simp [texts, Trace.ext_iff, hexported]

theorem join_texts (module : String) (items : List Item) :
    Trace.join (items.map fun item => texts module [item]) = texts module items := by
  induction items with
  | nil => rfl
  | cons item items ih => rw [List.map_cons, Trace.join_cons, ih, ← texts_cons]

theorem trace_append
    (module : String)
    (words others : List Word)
    (types further : List TypeExpression)
    (items more : List Item) :
    trace module words types items ++ trace module others further more =
      trace module (words ++ others) (types ++ further) (items ++ more) := by
  simp [trace, texts, modulesNamed, Trace.ext_iff]

end Item

def VariableGroup.items (g : VariableGroup) : List Item :=
  g.names.map fun v => .variable v g.type

def Procedure.item (module : String) (p : Procedure) : Item :=
  .procedure p.heading (localsText module p.locals ++ blockText p.block)

def Section.items (module : String) : Section → List Item
  | constants list => list.map .constant
  | variableGroups groups => groups.flatMap VariableGroup.items
  | procedure p => [p.item module]

/-- The blocks of statements inside a section. -/
def Section.blocks : Section → List Block
  | procedure p => p.block.toList
  | _ => []

/-! ### Modules -/

/-- An entry of an import list, which may be empty. -/
inductive Import
  | empty
  | module (name : String)
  | renamed (name real : String)
  deriving DecidableEq, Repr

namespace Import

def spelling : Import → List Word
  | empty => []
  | module name => [.identifier name]
  | renamed name real => [.identifier name, .sign .assign, .identifier real]

/-- The line that includes the interface of the module, whatever it is called here. -/
def includeLine : Import → String
  | empty => ""
  | module name => Target.includeLine (name ++ ".h")
  | renamed _ real => Target.includeLine (real ++ ".h")

/-- The entries of the symbol table, without the place of the module behind another name. -/
def entries : Import → List (String × Symbol.Kind)
  | empty => []
  | module name => [(name, .imported)]
  | renamed name real => [(real, .imported), (name, .aliasOf 0)]

/-- The modules that become known, each behind the name that it goes by. -/
def modules : Import → List (String × String)
  | empty => []
  | module name => [(name, name)]
  | renamed name real => [(real, real), (name, real)]

theorem exported_eq_false {i : Import} {entry : String × Symbol.Kind} (h : entry ∈ i.entries) :
    entry.2.exported = false := by
  cases i with
  | empty => cases h
  | module name =>
    obtain rfl := List.mem_singleton.1 h
    rfl
  | renamed name real =>
    obtain rfl | h := List.mem_cons.1 h
    · rfl
    · obtain rfl := List.mem_singleton.1 h
      rfl

def trace (i : Import) : Trace where
  words := i.spelling
  code := i.includeLine
  added := i.entries

end Import

/-- One import list. -/
structure ImportList where
  first : Import
  others : List Import

namespace ImportList

def imports (l : ImportList) : List Import := l.first :: l.others

def spelling (l : ImportList) : List Word :=
  .keyword .IMPORT :: l.first.spelling ++ behindSign .comma Import.spelling l.others ++
    [.sign .semicolon]

/-- What import lists leave. -/
def trace (lists : List ImportList) : Trace where
  words := lists.flatMap spelling
  code := String.join ((lists.flatMap imports).map Import.includeLine)
  added := (lists.flatMap imports).flatMap Import.entries

theorem join_trace (lists : List ImportList) :
    Trace.join (lists.map fun l => trace [l]) = trace lists := by
  induction lists with
  | nil => rfl
  | cons l lists ih =>
    rw [List.map_cons, Trace.join_cons, ih]
    simp [trace, Trace.ext_iff]

end ImportList

structure Module where
  name : String
  imports : List ImportList
  sections : List Section
  block : Option Block

namespace Module

def spelling (m : Module) : List Word :=
  [.keyword .MODULE, .identifier m.name, .sign .semicolon] ++
    m.imports.flatMap ImportList.spelling ++
    m.sections.flatMap Section.spelling ++ blockSpelling m.block ++
    [.keyword .END, .identifier m.name, .sign .dot, .eof]

/-- The source of a module ends with a point. -/
theorem exists_spelling_eq (m : Module) : ∃ front, m.spelling = front ++ [.sign .dot] ++ [.eof] :=
  ⟨[.keyword .MODULE, .identifier m.name, .sign .semicolon] ++
    m.imports.flatMap ImportList.spelling ++
    m.sections.flatMap Section.spelling ++ blockSpelling m.block ++
      [.keyword .END, .identifier m.name], by simp [spelling]⟩

def allImports (m : Module) : List Import := m.imports.flatMap ImportList.imports

/-- The modules that are known, each behind the name that it goes by. -/
def modules (m : Module) : List (String × String) :=
  (m.name, m.name) :: m.allImports.flatMap Import.modules

def types (m : Module) : List TypeExpression := m.sections.flatMap Section.types

/-- What the module declares, in the order of the source. -/
def items (m : Module) : List Item := m.sections.flatMap (Section.items m.name)

/-- The blocks of statements of the procedures and of the module itself. -/
def blocks (m : Module) : List Block := m.sections.flatMap Section.blocks ++ m.block.toList

/-- The text of the interface: between its head and its tail one line for each exported item. -/
def interface (m : Module) : String :=
  Target.interfaceHead m.name ++
    String.join ((m.items.filter Item.exported).map (Item.interfaceLine m.name)) ++
    Target.interfaceTail m.name

/-- The text of the implementation, which includes the interface as `header`. -/
def implementation (m : Module) (header : String) : String :=
  String.join (m.allImports.map Import.includeLine) ++ Target.includeLine header ++ "\n" ++
    String.join (m.items.map (Item.definition m.name)) ++
    Target.initializerHead m.name ++ blockText m.block ++ "\x7d\n"

/-- The entries of the symbol table behind the reserved words. -/
def entries (m : Module) : List (String × Symbol.Kind) :=
  (m.name, .thisModule) :: m.allImports.flatMap Import.entries ++ m.items.map Item.entry

end Module

/-! ### Modules by their names -/

/-- In import lists, another name that stands right behind a module was given to it. -/
theorem Import.renamed_mem_of_adjacent
    {imports : List Import}
    {called real : String}
    {i : Nat}
    (hreal : (imports.flatMap entries)[i]? = some (real, .imported))
    (hcalled : (imports.flatMap entries)[i + 1]? = some (called, .aliasOf 0)) :
    renamed called real ∈ imports := by
  -- No import begins with another name.
  have hhead : ∀ imports : List Import,
      (imports.flatMap entries)[0]? ≠ some (called, .aliasOf 0) := by
    intro imports
    induction imports with
    | nil => simp
    | cons first imports ih =>
      cases first with
      | empty => exact ih
      | module name => simp [entries]
      | renamed name real => simp [entries]
  induction imports generalizing i with
  | nil => simp at hreal
  | cons first imports ih =>
    cases first with
    | empty => exact List.mem_cons_of_mem _ (ih hreal hcalled)
    | module name =>
      cases i with
      | zero => exact absurd hcalled (hhead imports)
      | succ i => exact List.mem_cons_of_mem _ (ih hreal hcalled)
    | renamed name target =>
      match i with
      | 0 =>
        simp only [List.flatMap_cons, entries, List.cons_append, List.getElem?_cons_zero,
          List.getElem?_cons_succ, Option.some.injEq, Prod.mk.injEq, and_true] at hreal hcalled
        obtain ⟨rfl, rfl⟩ := And.intro hreal hcalled
        exact List.mem_cons_self
      | 1 => simp [entries] at hreal
      | i + 2 => exact List.mem_cons_of_mem _ (ih hreal hcalled)

theorem Import.mem_modules_of_mem_entries
    {i : Import} {name : String} (h : (name, .imported) ∈ i.entries) :
    (name, name) ∈ i.modules := by
  cases i <;> simp_all [entries, modules]

theorem Import.thisModule_notMem_entries {i : Import} {name : String} :
    (name, .thisModule) ∉ i.entries := by
  cases i <;> simp [entries]

/-- Items are no modules. -/
theorem Item.no_module (items : List Item) :
    ∀ entry ∈ items.map Item.entry,
      entry.2 ≠ .imported ∧ entry.2 ≠ .thisModule ∧ entry.2 ≠ .aliasOf 0 := by
  intro entry hentry
  obtain ⟨item, -, rfl⟩ := List.mem_map.1 hentry
  cases item <;> simp [Item.entry]

/--
The names that stand for modules in the table of a compiled module are those of the module itself
and of its imports.
-/
theorem Module.mem_modules_of_calls
    {m : Module}
    {called real : String}
    (h : Calls (reservedEntries ++ m.entries) called real) :
    (called, real) ∈ m.modules := by
  have hreserved : ∀ {name : String},
      (name, .imported) ∉ reservedEntries ∧ (name, .thisModule) ∉ reservedEntries := by
    simp [reservedEntries]
  rw [Module.entries, ← List.append_assoc] at h
  obtain ⟨rfl, hmem | hmem⟩ | ⟨i, hreal, hcalled⟩ := h.of_append (Item.no_module m.items)
  · obtain hmem | hmem := List.mem_append.1 hmem
    · exact absurd hmem hreserved.1
    · obtain ⟨i, hi, hmem⟩ := List.mem_flatMap.1 (List.mem_of_ne_of_mem (by simp) hmem)
      exact List.mem_cons_of_mem _ (List.mem_flatMap.2 ⟨i, hi,
        Import.mem_modules_of_mem_entries hmem⟩)
  · obtain hmem | hmem := List.mem_append.1 hmem
    · exact absurd hmem hreserved.2
    · obtain heq | hmem := List.mem_cons.1 hmem
      · obtain ⟨rfl, -⟩ := Prod.mk.inj heq
        exact List.mem_cons_self
      · obtain ⟨i, -, hmem⟩ := List.mem_flatMap.1 hmem
        exact absurd hmem Import.thisModule_notMem_entries
  · have hle : reservedEntries.length ≤ i := by
      by_contra hlt
      rw [List.getElem?_append_left (by omega)] at hreal
      exact hreserved.1 (List.mem_of_getElem? hreal)
    obtain ⟨j, rfl⟩ := Nat.exists_eq_add_of_le hle
    rw [List.getElem?_append_right (by omega), Nat.add_sub_cancel_left] at hreal
    rw [List.getElem?_append_right (by omega), Nat.add_assoc, Nat.add_sub_cancel_left,
      List.getElem?_cons_succ] at hcalled
    cases j with
    | zero => simp at hreal
    | succ j =>
      have hmem := Import.renamed_mem_of_adjacent hreal hcalled
      exact List.mem_cons_of_mem _ (List.mem_flatMap.2 ⟨_, hmem, by simp [Import.modules]⟩)

end Grammar
end Oberon
