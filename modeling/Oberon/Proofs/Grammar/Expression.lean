import Oberon.Proofs.Passage

/-!
# The grammar of expressions

Expressions as syntax trees, and three functions on the trees: how a tree is spelled in a source,
which type it has among the declared names, and how it is written in C.

    expression := simple [relation simple]
    simple     := [+ | -] term {sum operator term}
    term       := factor {product operator factor}
    factor     := literal | ( expression ) | ~ factor
                | function ( expression ) | ASH ( expression , expression )
                | designator [( [expression {, expression}] )]
    designator := [module .] name {[ expression ]}

**Types.**  A chain has the type of its first operand, and every later operand must be compatible
with it.  A relation is a `BOOLEAN`.  An index is an integer behind an array or behind something of
unknown type.

**Text.**  A term and either side of a relation are put in parentheses.  A minus sign is kept and a
plus sign dropped.  Names stand behind the name of the module that owns them.
-/

namespace Oberon

namespace Operator

/-- The kind of token that an operator is written with. -/
def kind : Operator → Token.Kind
  | equal => .sign .equal
  | notEqual => .sign .notEqual
  | less => .sign .less
  | lessEqual => .sign .lessEqual
  | greater => .sign .greater
  | greaterEqual => .sign .greaterEqual
  | plus => .sign .plus
  | minus => .sign .minus
  | or => .keyword .OR
  | times => .sign .asterisk
  | quotient => .sign .slash
  | div => .keyword .DIV
  | mod => .keyword .MOD
  | and => .sign .ampersand

/-- The word that an operator is written with. -/
def word (op : Operator) : Word := (op.kind, op.kind.fixedText?.getD "")

/-- The operators of one level. -/
abbrev At (level : Level) := { op : Operator // op.level = level }

theorem operator?_kind (op : Operator) : op.kind.operator? = some op := by
  cases op <;> rfl

theorem kind_of_operator?
    {kind : Token.Kind} {op : Operator} (h : kind.operator? = some op) : kind = op.kind := by
  unfold Token.Kind.operator? at h
  split at h <;> simp_all <;> subst h <;> rfl

theorem operatorAt?_eq_some_iff (kind : Token.Kind) (level : Level) (op : Operator) :
    kind.operatorAt? level = some op ↔ kind = op.kind ∧ op.level = level := by
  unfold Token.Kind.operatorAt?
  rw [Option.filter_eq_some_iff]
  constructor
  · rintro ⟨hop, hlevel⟩
    exact ⟨kind_of_operator? hop, by simpa using hlevel⟩
  · rintro ⟨rfl, hlevel⟩
    exact ⟨operator?_kind op, by simpa using hlevel⟩

theorem word_eq_iff (op : Operator) (t : Token) : t.word = op.word ↔ t.kind = op.kind := by
  constructor
  · intro h
    exact congrArg Prod.fst h
  · intro h
    have hfixed : op.kind.fixedText?.isSome := by cases op <;> rfl
    obtain ⟨text, htext⟩ := Option.isSome_iff_exists.1 hfixed
    simp [Token.word, Operator.word, h, htext]

theorem kind_ne_eof (op : Operator) : op.kind ≠ .eof := by
  cases op <;> simp [kind]

end Operator

namespace Grammar

/-- The sign in front of a simple expression. -/
inductive Polarity
  | plus | minus
  deriving DecidableEq, Repr

/-- What kind of value a literal writes out. -/
inductive LiteralKind
  | number (numeral : Numeral)
  | char
  | string
  deriving DecidableEq, Repr

structure Literal where
  kind : LiteralKind
  lexeme : String
  deriving DecidableEq, Repr

/-- The built-in functions of one argument. -/
inductive Function
  | abs | odd | ord | chr | floor
  deriving DecidableEq, Repr

/-- A name, by itself or as a member of a module. -/
inductive Name
  | plain (name : String)
  | member (module name : String)
  deriving DecidableEq, Repr

mutual

inductive Expression
  | simple (side : Simple)
  | relation (left : Simple) (op : Operator.At .relation) (right : Simple)

inductive Simple
  | chain (sign : Option Polarity) (first : Term) (others : List (Operator.At .sum × Term))

inductive Term
  | chain (first : Factor) (others : List (Operator.At .product × Factor))

inductive Factor
  | literal (literal : Literal)
  | group (inner : Expression)
  | negation (operand : Factor)
  | function (function : Function) (argument : Expression)
  | shift (value amount : Expression)
  | reference (target : Designator)
  | call (target : Designator) (arguments : List Expression)

inductive Designator
  | mk (name : Name) (indices : List Expression)

end

/-- A name as a designator. -/
def Designator.plain (name : String) : Designator := .mk (.plain name) []

/-- An integer as an expression. -/
def Expression.integer (lexeme : String) : Expression :=
  .simple (.chain none (.chain (.literal ⟨.number .integer, lexeme⟩) []) [])

/-! ### Spelling -/

def Polarity.word : Polarity → Word
  | plus => .sign .plus
  | minus => .sign .minus

def LiteralKind.tokenKind : LiteralKind → Token.Kind
  | number numeral => .number numeral
  | char => .charLiteral
  | string => .stringLiteral

def Literal.word (l : Literal) : Word := (l.kind.tokenKind, l.lexeme)

def Function.keyword : Function → Keyword
  | abs => .ABS
  | odd => .ODD
  | ord => .ORD
  | chr => .CHR
  | floor => .FLOOR

def Name.spelling : Name → List Word
  | plain name => [.identifier name]
  | member module name => [.identifier module, .sign .dot, .identifier name]

mutual

def Expression.spelling : Expression → List Word
  | .simple side => side.spelling
  | .relation left op right => left.spelling ++ op.1.word :: right.spelling

def Simple.spelling : Simple → List Word
  | .chain sign first others =>
      (sign.map Polarity.word).toList ++ first.spelling ++ termsSpelling others

/-- Terms, each behind its operator. -/
def termsSpelling : List (Operator.At .sum × Term) → List Word
  | [] => []
  | (op, term) :: others => op.1.word :: term.spelling ++ termsSpelling others

def Term.spelling : Term → List Word
  | .chain first others => first.spelling ++ factorsSpelling others

/-- Factors, each behind its operator. -/
def factorsSpelling : List (Operator.At .product × Factor) → List Word
  | [] => []
  | (op, factor) :: others => op.1.word :: factor.spelling ++ factorsSpelling others

def Factor.spelling : Factor → List Word
  | .literal l => [l.word]
  | .group inner => .sign .openParen :: inner.spelling ++ [.sign .closeParen]
  | .negation operand => .sign .tilde :: operand.spelling
  | .function f argument =>
      .keyword f.keyword :: .sign .openParen :: argument.spelling ++ [.sign .closeParen]
  | .shift value amount =>
      .keyword .ASH :: .sign .openParen :: value.spelling ++ .sign .comma :: amount.spelling
        ++ [.sign .closeParen]
  | .reference target => target.spelling
  | .call target arguments =>
      target.spelling ++ .sign .openParen :: argumentsSpelling arguments ++ [.sign .closeParen]

def Designator.spelling : Designator → List Word
  | .mk name indices => name.spelling ++ indicesSpelling indices

/-- Indices, each in its brackets. -/
def indicesSpelling : List Expression → List Word
  | [] => []
  | index :: others =>
      .sign .openBracket :: index.spelling ++ .sign .closeBracket :: indicesSpelling others

/-- Arguments with commas between them. -/
def argumentsSpelling : List Expression → List Word
  | [] => []
  | [argument] => argument.spelling
  | argument :: others => argument.spelling ++ .sign .comma :: argumentsSpelling others

end

/-! ### Where a phrase ends

A phrase is read as far as it goes: what stands behind it must not continue it. -/

/--
A token of the kind behind the factor does not continue it: only a plain reference goes on, with an
index or with arguments.
-/
def Factor.StopsBefore : Factor → Token.Kind → Prop
  | .negation operand, kind => operand.StopsBefore kind
  | .reference _, kind => kind ≠ .sign .openBracket ∧ kind ≠ .sign .openParen
  | _, _ => True

/-- The last operand of a chain. -/
def lastOperand {α : Type} {level : Operator.Level} (first : α) : List (Operator.At level × α) → α
  | [] => first
  | (_, operand) :: others => lastOperand operand others

def Term.StopsBefore : Term → Token.Kind → Prop
  | .chain first others, kind =>
      kind.operatorAt? .product = none ∧ (lastOperand first others).StopsBefore kind

def Simple.StopsBefore : Simple → Token.Kind → Prop
  | .chain _ first others, kind =>
      kind.operatorAt? .sum = none ∧ (lastOperand first others).StopsBefore kind

/--
A token of the kind behind the expression does not continue it; a relation has no second relation.
-/
def Expression.StopsBefore : Expression → Token.Kind → Prop
  | .simple side, kind => kind.operatorAt? .relation = none ∧ side.StopsBefore kind
  | .relation _ _ right, kind => right.StopsBefore kind

/-! ### Names -/

/-- The name without its module. -/
def Name.own : Name → String
  | plain name => name
  | member _ name => name

/--
What expressions are read against: the declared names, the known types and the name of the module.
-/
structure Context where
  symbols : SymbolTable
  types : TypeCatalog
  moduleName : String

theorem toOption_eq_some_iff {ε α : Type} {x : Except ε α} {a : α} :
    x.toOption = some a ↔ x = .ok a := by
  cases x with
  | ok b => simp [Except.toOption]
  | error e => simp [Except.toOption]

namespace Context

/-- The newest symbol with a name. -/
def newest? (c : Context) (name : String) : Option Symbol :=
  match c.symbols.find name with
  | .ok (some index) => (c.symbols.get index).toOption
  | _ => none

/-- The index of the module that a name stands for, directly or as another name for it. -/
def moduleIndex? (c : Context) (name : String) : Option Nat :=
  match c.symbols.find name with
  | .ok (some index) => (c.symbols.resolve index).toOption
  | _ => none

/-- What a symbol stands for as a value; modules and reserved words are no values. -/
def valueOf? (symbol : Symbol) (name : String) : Option Compilation.Designator :=
  match symbol.kind with
  | .procedure _ parameters =>
      some {
        name, type := .procedure, callType := symbol.type
        parameters := some parameters, assignable := false }
  | .constant => some { name, type := symbol.type, assignable := false }
  | .variable _ => some { name, type := symbol.type, assignable := true }
  | .parameter => some { name, type := symbol.type, assignable := true }
  | _ => none

/--
The module that owns what a name stands for, and what it stands for.  The members of other modules
are not known.
-/
def denotes? (c : Context) : Name → Option (String × Compilation.Designator)
  | .plain name => do
      let symbol ← c.newest? name
      let value ← valueOf? symbol name
      return (c.moduleName, value)
  | .member module name => do
      let index ← c.moduleIndex? module
      let symbol ← (c.symbols.get index).toOption
      match symbol.kind with
      | .thisModule =>
          let member ← c.newest? name
          let value ← valueOf? member name
          return (c.moduleName, value)
      | .imported =>
          let owner ← (c.symbols.name index).toOption
          return (owner, { name, type := .unknown, assignable := true })
      | _ => none

/-- The module behind whose name a name is written. -/
def owner (c : Context) (name : Name) : String :=
  ((c.denotes? name).map Prod.fst).getD c.moduleName

theorem newest?_eq_some_iff (c : Context) (name : String) (symbol : Symbol) :
    c.newest? name = some symbol ↔
      ∃ index, c.symbols.find name = .ok (some index) ∧ c.symbols.get index = .ok symbol := by
  unfold newest?
  constructor
  · intro h
    split at h
    · rename_i index hfind
      cases hget : c.symbols.get index with
      | ok found =>
        simp only [hget, Except.toOption, Option.some.injEq] at h
        exact ⟨index, hfind, by rw [hget, h]⟩
      | error fault => simp [hget, Except.toOption] at h
    · cases h
  · rintro ⟨index, hfind, hget⟩
    simp [hfind, hget, Except.toOption]

theorem moduleIndex?_eq_some_iff (c : Context) (name : String) (target : Nat) :
    c.moduleIndex? name = some target ↔
      ∃ index, c.symbols.find name = .ok (some index) ∧ c.symbols.resolve index = .ok target := by
  unfold moduleIndex?
  constructor
  · intro h
    split at h
    · rename_i index hfind
      cases hresolve : c.symbols.resolve index with
      | ok found =>
        simp only [hresolve, Except.toOption, Option.some.injEq] at h
        exact ⟨index, hfind, by rw [hresolve, h]⟩
      | error fault => simp [hresolve, Except.toOption] at h
    · cases h
  · rintro ⟨index, hfind, hresolve⟩
    simp [hfind, hresolve, Except.toOption]

/-- What a name stands for by itself. -/
theorem denotes?_plain_iff (c : Context) (name : String) (found : String × Compilation.Designator) :
    c.denotes? (.plain name) = some found ↔
      ∃ index symbol,
        c.symbols.find name = .ok (some index) ∧ c.symbols.get index = .ok symbol ∧
        valueOf? symbol name = some found.2 ∧ found.1 = c.moduleName := by
  obtain ⟨owner, value⟩ := found
  simp only [denotes?, Option.bind_eq_bind, Option.bind_eq_some_iff, newest?_eq_some_iff,
    Option.pure_def, Option.some.injEq, Prod.mk.injEq]
  constructor
  · rintro ⟨symbol, ⟨index, hfind, hget⟩, _, hvalue, rfl, rfl⟩
    exact ⟨index, symbol, hfind, hget, hvalue, rfl⟩
  · rintro ⟨index, symbol, hfind, hget, hvalue, rfl⟩
    exact ⟨symbol, ⟨index, hfind, hget⟩, _, hvalue, rfl, rfl⟩

/-- What a name stands for as a member: of this module, or of an imported one. -/
theorem denotes?_member_iff
    (c : Context) (module name : String) (found : String × Compilation.Designator) :
    c.denotes? (.member module name) = some found ↔
      ∃ index target symbol,
        c.symbols.find module = .ok (some index) ∧
        c.symbols.resolve index = .ok target ∧
        c.symbols.get target = .ok symbol ∧
        ((symbol.kind = .thisModule ∧ c.denotes? (.plain name) = some found) ∨
          (symbol.kind = .imported ∧
            c.symbols.name target = .ok found.1 ∧
            found.2 = { name, type := .unknown, assignable := true })) := by
  obtain ⟨owner, value⟩ := found
  rw [denotes?.eq_2]
  simp only [Option.bind_eq_bind, Option.bind_eq_some_iff, moduleIndex?_eq_some_iff,
    toOption_eq_some_iff]
  constructor
  · rintro ⟨target, ⟨index, hfind, hresolve⟩, symbol, hget, h⟩
    refine ⟨index, target, symbol, hfind, hresolve, hget, ?_⟩
    split at h
    · rename_i hkind
      exact Or.inl ⟨hkind, h⟩
    · rename_i hkind
      obtain ⟨_, howner, h⟩ := Option.bind_eq_some_iff.1 h
      cases h
      exact Or.inr ⟨hkind, toOption_eq_some_iff.1 howner, rfl⟩
    · cases h
  · rintro ⟨index, target, symbol, hfind, hresolve, hget, h⟩
    refine ⟨target, ⟨index, hfind, hresolve⟩, symbol, hget, ?_⟩
    obtain ⟨hkind, h⟩ | ⟨hkind, howner, rfl⟩ := h
    · rw [hkind]
      exact h
    · simp [hkind, howner, Except.toOption]

theorem name_of_valueOf?
    {symbol : Symbol} {name : String} {d : Compilation.Designator}
    (h : valueOf? symbol name = some d) : d.name = name := by
  unfold valueOf? at h
  split at h <;> cases h <;> rfl

/-- A name stands for something of that name. -/
theorem name_of_denotes?
    {c : Context} {name : Name} {found : String × Compilation.Designator}
    (h : c.denotes? name = some found) : found.2.name = name.own := by
  cases name with
  | plain name =>
    obtain ⟨_, _, -, -, hvalue, -⟩ := (c.denotes?_plain_iff ..).1 h
    exact name_of_valueOf? hvalue
  | member module name =>
    obtain ⟨_, _, _, -, -, -, ⟨-, hplain⟩ | ⟨-, -, hvalue⟩⟩ := (c.denotes?_member_iff ..).1 h
    · obtain ⟨_, _, -, -, hvalue, -⟩ := (c.denotes?_plain_iff ..).1 hplain
      exact name_of_valueOf? hvalue
    · rw [hvalue]
      rfl

theorem owner_of_denotes?
    {c : Context} {name : Name} {found : String × Compilation.Designator}
    (h : c.denotes? name = some found) : c.owner name = found.1 := by
  simp [owner, h]

/-- Only a module or another name for one is not what it resolves to. -/
theorem resolve_of_valueOf?
    {table : SymbolTable}
    {index : Nat}
    {symbol : Symbol}
    {name : String}
    {d : Compilation.Designator}
    (hget : table.get index = .ok symbol)
    (hvalue : valueOf? symbol name = some d) :
    table.resolve index = .ok index := by
  unfold SymbolTable.resolve
  simp only [hget]
  cases hkind : symbol.kind with
  | aliasOf target => simp [valueOf?, hkind] at hvalue
  | _ => rfl

end Context

/-! ### Types -/

def LiteralKind.type : LiteralKind → DataType
  | number numeral => .ofNumeral numeral
  | char => .char
  | string => .string

/-- The type of a function of an argument, if the argument is of a type that the function takes. -/
def Function.type? (c : Context) (argument : DataType) : Function → Option DataType
  | abs => some argument
  | odd => if c.types.compatible argument .integer then some .boolean else none
  | ord => some .integer
  | chr => if c.types.compatible argument .integer then some .char else none
  | floor => if c.types.compatible argument .real then some .longInteger else none

/-- An argument serves a parameter, of which only the built-in scalar types are looked at. -/
def serves (c : Context) (parameter argument : DataType) : Bool :=
  !(parameter.isBuiltin && decide (c.types.form parameter = .scalar)) ||
    c.types.compatible parameter argument

/--
The arguments of a call suit the parameters: as many of them, and each one serves its parameter.
Nothing is known of the parameters of other modules.
-/
def suits (c : Context) (parameters : Option (List DataType)) (arguments : List DataType) : Bool :=
  match parameters with
  | none => true
  | some parameters =>
      decide (parameters.length = arguments.length) &&
        (parameters.zip arguments).all fun pair => serves c pair.1 pair.2

mutual

def Expression.type? (c : Context) : Expression → Option DataType
  | .simple side => side.type? c
  | .relation left _ right => do
      let first ← left.type? c
      let second ← right.type? c
      if c.types.compatible first second then some .boolean else none

def Simple.type? (c : Context) : Simple → Option DataType
  | .chain _ first others => do
      let type ← first.type? c
      if termsFit c type others then some type else none

/-- Every term is compatible with a type. -/
def termsFit (c : Context) (type : DataType) : List (Operator.At .sum × Term) → Bool
  | [] => true
  | (_, term) :: others => (term.type? c).any (c.types.compatible type) && termsFit c type others

def Term.type? (c : Context) : Term → Option DataType
  | .chain first others => do
      let type ← first.type? c
      if factorsFit c type others then some type else none

/-- Every factor is compatible with a type. -/
def factorsFit (c : Context) (type : DataType) : List (Operator.At .product × Factor) → Bool
  | [] => true
  | (_, factor) :: others =>
    (factor.type? c).any (c.types.compatible type) && factorsFit c type others

def Factor.type? (c : Context) : Factor → Option DataType
  | .literal l => some l.kind.type
  | .group inner => inner.type? c
  | .negation operand => do
      let type ← operand.type? c
      if c.types.compatible type .boolean then some .boolean else none
  | .function f argument => do
      let type ← argument.type? c
      f.type? c type
  | .shift value amount => do
      let type ← value.type? c
      let steps ← amount.type? c
      if c.types.compatible type .integer && c.types.compatible steps .integer then
        some type
      else
        none
  | .reference target => do
      let value ← target.value? c
      return value.type
  | .call target arguments => do
      let value ← target.value? c
      let types ← argumentTypes? c arguments
      if suits c value.parameters types then some value.callType else none

/-- What a designator stands for. -/
def Designator.value? (c : Context) : Designator → Option Compilation.Designator
  | .mk name indices => do
      let (_, value) ← c.denotes? name
      indexed? c value indices

/-- What is left of a value behind indices: an element, which is no procedure of this module. -/
def indexed? (c : Context) (value : Compilation.Designator) :
    List Expression → Option Compilation.Designator
  | [] => some value
  | index :: others => do
      let type ← (c.types.element value.type).toOption
      let position ← index.type? c
      if c.types.compatible position .integer then
        indexed? c { value with type, callType := .unknown, parameters := none } others
      else none

def argumentTypes? (c : Context) : List Expression → Option (List DataType)
  | [] => some []
  | argument :: others => do
      let type ← argument.type? c
      let types ← argumentTypes? c others
      return type :: types

end

/-! ### Text -/

def Polarity.text : Polarity → String
  | plus => ""
  | minus => "-"

/--
A function around the text of an argument; the absolute value depends on the type of the argument.
-/
def Function.text (argument : Option DataType) (text : String) : Function → String
  | abs => (if argument.any DataType.isReal then "fabs" else "abs") ++ "(" ++ text ++ ")"
  | odd => "((" ++ text ++ ") & 1)"
  | ord => "((int)(" ++ text ++ "))"
  | chr => "((char)(" ++ text ++ "))"
  | floor => "((long)floor(" ++ text ++ "))"

mutual

def Expression.text (c : Context) : Expression → String
  | .simple side => "(" ++ side.text c ++ ")"
  | .relation left op right => "(" ++ left.text c ++ ")" ++ op.1.text ++ "(" ++ right.text c ++ ")"

def Simple.text (c : Context) : Simple → String
  | .chain sign first others =>
    (sign.map Polarity.text).getD "" ++ first.text c ++ termsText c others

def termsText (c : Context) : List (Operator.At .sum × Term) → String
  | [] => ""
  | (op, term) :: others => op.1.text ++ term.text c ++ termsText c others

def Term.text (c : Context) : Term → String
  | .chain first others => "(" ++ first.text c ++ factorsText c others ++ ")"

def factorsText (c : Context) : List (Operator.At .product × Factor) → String
  | [] => ""
  | (op, factor) :: others => op.1.text ++ factor.text c ++ factorsText c others

def Factor.text (c : Context) : Factor → String
  | .literal l => l.lexeme
  | .group inner => "(" ++ inner.text c ++ ")"
  | .negation operand => "!" ++ operand.text c
  | .function f argument => f.text (argument.type? c) (argument.text c)
  | .shift value amount =>
      Target.shiftMacro c.moduleName ++ "(" ++ value.text c ++ ", " ++ amount.text c ++ ")"
  | .reference target => target.text c
  | .call target arguments => target.text c ++ "(" ++ argumentsText c arguments ++ ")"

def Designator.text (c : Context) : Designator → String
  | .mk name indices => Target.mangle (c.owner name) name.own ++ indicesText c indices

def indicesText (c : Context) : List Expression → String
  | [] => ""
  | index :: others => "[" ++ index.text c ++ "]" ++ indicesText c others

def argumentsText (c : Context) : List Expression → String
  | [] => ""
  | [argument] => argument.text c
  | argument :: others => argument.text c ++ ", " ++ argumentsText c others

end

/-! ### What the functions have in common -/

/-- Only brackets and parentheses continue a factor. -/
theorem Factor.stopsBefore_of_ne
    {kind : Token.Kind} (hbracket : kind ≠ .sign .openBracket) (hparen : kind ≠ .sign .openParen) :
    ∀ factor : Factor, factor.StopsBefore kind
  | .negation operand => Factor.stopsBefore_of_ne hbracket hparen operand
  | .reference _ => ⟨hbracket, hparen⟩
  | .literal _ => trivial
  | .group _ => trivial
  | .function _ _ => trivial
  | .shift _ _ => trivial
  | .call _ _ => trivial

/-- A token of the kind continues no expression. -/
def EndsExpression (kind : Token.Kind) : Prop :=
  kind.operator? = none ∧ kind ≠ .sign .openBracket ∧ kind ≠ .sign .openParen

instance (kind : Token.Kind) : Decidable (EndsExpression kind) :=
  inferInstanceAs (Decidable (_ ∧ _ ∧ _))

theorem Expression.stopsBefore_of_ends
    {kind : Token.Kind} (h : EndsExpression kind) (e : Expression) : e.StopsBefore kind := by
  obtain ⟨hoperator, hbracket, hparen⟩ := h
  have hnone : ∀ level, kind.operatorAt? level = none := by
    intro level
    simp [Token.Kind.operatorAt?, hoperator]
  have hsimple : ∀ side : Simple, side.StopsBefore kind := by
    rintro ⟨sign, first, others⟩
    refine ⟨hnone .sum, ?_⟩
    obtain ⟨factor, factors⟩ := lastOperand first others
    exact ⟨hnone .product, Factor.stopsBefore_of_ne hbracket hparen _⟩
  cases e with
  | simple side => exact ⟨hnone .relation, hsimple side⟩
  | relation left op right => exact hsimple right

theorem Term.type?_eq_some_iff
    (c : Context)
    (first : Factor)
    (others : List (Operator.At .product × Factor))
    (type : DataType) :
    (Term.chain first others).type? c = some type ↔
      first.type? c = some type ∧ factorsFit c type others = true := by
  rw [Term.type?]
  cases first.type? c with
  | none => simp
  | some found =>
    simp only [Option.bind_eq_bind, Option.bind_some, Option.some.injEq]
    constructor
    · intro h
      split at h
      · cases h
        exact ⟨rfl, ‹_›⟩
      · cases h
    · rintro ⟨rfl, hfits⟩
      simp [hfits]

theorem Simple.type?_eq_some_iff
    (c : Context) (sign : Option Polarity) (first : Term) (others : List (Operator.At .sum × Term))
    (type : DataType) :
    (Simple.chain sign first others).type? c = some type ↔
      first.type? c = some type ∧ termsFit c type others = true := by
  rw [Simple.type?]
  cases first.type? c with
  | none => simp
  | some found =>
    simp only [Option.bind_eq_bind, Option.bind_some, Option.some.injEq]
    constructor
    · intro h
      split at h
      · cases h
        exact ⟨rfl, ‹_›⟩
      · cases h
    · rintro ⟨rfl, hfits⟩
      simp [hfits]

theorem Expression.type?_relation_eq_some_iff
    (c : Context) (left right : Simple) (op : Operator.At .relation) (type : DataType) :
    (Expression.relation left op right).type? c = some type ↔
      ∃ first second,
        left.type? c = some first ∧ right.type? c = some second ∧
        c.types.compatible first second = true ∧ type = .boolean := by
  simp only [Expression.type?, Option.bind_eq_bind, Option.bind_eq_some_iff,
    Option.ite_none_right_eq_some,
    Option.some.injEq]
  constructor
  · rintro ⟨first, hfirst, second, hsecond, hcompatible, rfl⟩
    exact ⟨first, second, hfirst, hsecond, hcompatible, rfl⟩
  · rintro ⟨first, second, hfirst, hsecond, hcompatible, rfl⟩
    exact ⟨first, hfirst, second, hsecond, hcompatible, rfl⟩

theorem Factor.type?_shift_eq_some_iff (c : Context) (value amount : Expression) (type : DataType) :
    (Factor.shift value amount).type? c = some type ↔
      ∃ steps,
        value.type? c = some type ∧ amount.type? c = some steps ∧
        c.types.compatible type .integer = true ∧ c.types.compatible steps .integer = true := by
  simp only [Factor.type?, Option.bind_eq_bind, Option.bind_eq_some_iff,
    Option.ite_none_right_eq_some,
    Bool.and_eq_true, Option.some.injEq]
  constructor
  · rintro ⟨_, hvalue, steps, hamount, ⟨hfirst, hsecond⟩, rfl⟩
    exact ⟨steps, hvalue, hamount, hfirst, hsecond⟩
  · rintro ⟨steps, hvalue, hamount, hfirst, hsecond⟩
    exact ⟨type, hvalue, steps, hamount, ⟨hfirst, hsecond⟩, rfl⟩

/-- The kinds of tokens that a factor begins with. -/
def opensFactor : Token.Kind → Bool
  | .number _ => true
  | .charLiteral => true
  | .stringLiteral => true
  | .sign .openParen => true
  | .sign .tilde => true
  | .keyword .ABS => true
  | .keyword .ODD => true
  | .keyword .ORD => true
  | .keyword .CHR => true
  | .keyword .FLOOR => true
  | .keyword .ASH => true
  | .identifier => true
  | _ => false

theorem Name.spelling_eq_cons (name : Name) :
    ∃ first words, name.spelling = .identifier first :: words := by
  cases name with
  | plain name => exact ⟨name, _, rfl⟩
  | member module name => exact ⟨module, _, rfl⟩

theorem Designator.spelling_eq_cons (target : Designator) :
    ∃ name words, target.spelling = .identifier name :: words := by
  obtain ⟨name, indices⟩ := target
  obtain ⟨first, words, hspelling⟩ := name.spelling_eq_cons
  exact ⟨first, _, by rw [Designator.spelling, hspelling]; rfl⟩

theorem Factor.spelling_eq_cons (factor : Factor) :
    ∃ word words, factor.spelling = word :: words ∧ opensFactor word.1 = true := by
  cases factor with
  | literal l =>
    refine ⟨l.word, [], by rw [Factor.spelling], ?_⟩
    obtain ⟨kind, lexeme⟩ := l
    cases kind <;> rfl
  | group inner => exact ⟨_, _, by rw [Factor.spelling]; rfl, rfl⟩
  | negation operand => exact ⟨_, _, by rw [Factor.spelling], rfl⟩
  | function f argument =>
    refine ⟨_, _, by rw [Factor.spelling]; rfl, ?_⟩
    cases f <;> rfl
  | shift value amount => exact ⟨_, _, by rw [Factor.spelling]; rfl, rfl⟩
  | reference target =>
    obtain ⟨name, words, hspelling⟩ := target.spelling_eq_cons
    exact ⟨_, _, by rw [Factor.spelling, hspelling], rfl⟩
  | call target arguments =>
    obtain ⟨name, words, hspelling⟩ := target.spelling_eq_cons
    exact ⟨_, _, by rw [Factor.spelling, hspelling]; rfl, rfl⟩

theorem Term.spelling_eq_cons (term : Term) :
    ∃ word words, term.spelling = word :: words ∧ opensFactor word.1 = true := by
  obtain ⟨first, others⟩ := term
  obtain ⟨word, words, hspelling, hopens⟩ := first.spelling_eq_cons
  exact ⟨word, _, by rw [Term.spelling, hspelling]; rfl, hopens⟩

/-- The kinds of tokens that an expression begins with. -/
def opensExpression (kind : Token.Kind) : Bool :=
  opensFactor kind || kind == .sign .plus || kind == .sign .minus

theorem Simple.spelling_eq_cons (side : Simple) :
    ∃ word words, side.spelling = word :: words ∧ opensExpression word.1 = true := by
  obtain ⟨sign, first, others⟩ := side
  obtain ⟨word, words, hspelling, hopens⟩ := first.spelling_eq_cons
  cases sign with
  | none =>
    exact ⟨word, _, by rw [Simple.spelling, hspelling]; rfl, by simp [opensExpression, hopens]⟩
  | some polarity =>
    refine ⟨polarity.word, _, by rw [Simple.spelling]; rfl, ?_⟩
    cases polarity <;> rfl

theorem Expression.spelling_eq_cons (e : Expression) :
    ∃ word words, e.spelling = word :: words ∧ opensExpression word.1 = true := by
  cases e with
  | simple side =>
    rw [Expression.spelling]
    exact side.spelling_eq_cons
  | relation left op right =>
    obtain ⟨word, words, hspelling, hopens⟩ := left.spelling_eq_cons
    exact ⟨word, _, by rw [Expression.spelling, hspelling]; rfl, hopens⟩

theorem argumentsSpelling_eq_cons (argument : Expression) (others : List Expression) :
    ∃ word words,
      argumentsSpelling (argument :: others) = word :: words ∧ opensExpression word.1 = true := by
  obtain ⟨word, words, hspelling, hopens⟩ := argument.spelling_eq_cons
  cases others with
  | nil => exact ⟨word, words, by rw [argumentsSpelling, hspelling], hopens⟩
  | cons next others =>
    exact ⟨word, words ++ .sign .comma :: argumentsSpelling (next :: others),
      by simp [argumentsSpelling, hspelling], hopens⟩

theorem operatorAt?_kind_of_ne
    {level other : Operator.Level} (op : Operator.At level) (h : level ≠ other) :
    op.1.kind.operatorAt? other = none := by
  rw [Option.eq_none_iff_forall_ne_some]
  intro found hfound
  obtain ⟨hkind, hlevel⟩ := (Operator.operatorAt?_eq_some_iff ..).1 hfound
  have hop : op.1 = found := by
    have := op.1.operator?_kind
    rw [hkind, found.operator?_kind] at this
    exact (Option.some.inj this).symm
  exact h (by rw [← op.2, ← hlevel, hop])

/-- An operator never continues a factor. -/
theorem Factor.stopsBefore_operator (factor : Factor) (op : Operator) :
    factor.StopsBefore op.kind :=
  factor.stopsBefore_of_ne (by cases op <;> simp [Operator.kind])
    (by cases op <;> simp [Operator.kind])

theorem Term.stopsBefore_sum (term : Term) (op : Operator.At .sum) :
    term.StopsBefore op.1.kind := by
  obtain ⟨first, others⟩ := term
  exact ⟨operatorAt?_kind_of_ne op (by decide), Factor.stopsBefore_operator _ op.1⟩

theorem Simple.stopsBefore_relation (side : Simple) (op : Operator.At .relation) :
    side.StopsBefore op.1.kind := by
  obtain ⟨sign, first, others⟩ := side
  refine ⟨operatorAt?_kind_of_ne op (by decide), ?_⟩
  obtain ⟨factor, factors⟩ := lastOperand first others
  exact ⟨operatorAt?_kind_of_ne op (by decide), Factor.stopsBefore_operator _ op.1⟩

end Grammar

namespace Compilation
namespace State

/-- What expressions are read against in a state. -/
def context (s : State) : Grammar.Context :=
  ⟨s.symbols, s.types, s.moduleName⟩

section Frame

variable {s t : State} {words : List Word} {text : String}

/-- Passages leave what expressions are read against as it is. -/
theorem Translates.context_eq (h : s.Translates words text t) : t.context = s.context := by
  obtain ⟨cursor, token, rfl⟩ := h.frame
  rfl

theorem Translates.symbols_eq (h : s.Translates words text t) : t.symbols = s.symbols :=
  congrArg Grammar.Context.symbols h.context_eq

theorem Translates.types_eq (h : s.Translates words text t) : t.types = s.types :=
  congrArg Grammar.Context.types h.context_eq

theorem Translates.moduleName_eq (h : s.Translates words text t) : t.moduleName = s.moduleName :=
  congrArg Grammar.Context.moduleName h.context_eq

end Frame

end State
end Compilation
end Oberon
