import Oberon.Compilation.State

/-!
# Requests

Everything that the rules of the grammar do to the state of a compilation, or learn of it, is one of
these requests.
-/

namespace Oberon
namespace Compilation

/-- What performing a request or an action means. -/
abbrev Effect := EStateM Halt State

/-- A request, with the type of its answer. -/
inductive Request : Type → Type
  /-- Kind and lexeme of the current token. -/
  | look : Request (Token.Kind × String)
  /-- Makes the next token the current one. -/
  | take : Request Unit
  /-- Writes to the implementation or the innermost capture. -/
  | write (text : String) : Request Unit
  /-- Writes to the interface. -/
  | publish (text : String) : Request Unit
  /-- The newest symbol with a name. -/
  | find (name : String) : Request (Option Nat)
  /-- The symbol at an index. -/
  | symbol (index : Nat) : Request Symbol
  /-- The name of the symbol at an index. -/
  | nameOf (index : Nat) : Request String
  /-- The module behind an alias, or the symbol itself. -/
  | resolve (index : Nat) : Request Nat
  /-- Declares a symbol; the answer is its index. -/
  | declare (name : String) (kind : Symbol.Kind) (type : DataType) : Request Nat
  /-- Gives the symbol at an index its type. -/
  | setType (index : Nat) (type : DataType) : Request Unit
  /-- Gives the procedure at an index, and the innermost scope, the procedure's types. -/
  | setSignature
      (index : Nat)
      (exported : Bool)
      (parameters : List DataType)
      (result : DataType) :
      Request Unit
  /-- Demands compatible types. -/
  | requireCompatible (a b : DataType) : Request Unit
  /-- The form of a type. -/
  | form (type : DataType) : Request Form
  /-- The type of the elements of an array. -/
  | element (type : DataType) : Request DataType
  /-- Adds a type. -/
  | addType (shape : Shape) : Request DataType
  /-- Names the module. -/
  | nameModule (name : String) : Request Unit
  /-- The name of the module. -/
  | moduleName : Request String
  /-- The innermost open scope. -/
  | scope : Request Scope

namespace Request

/-- Goes on with the answer of a symbol table. -/
def ofTable {α : Type} : Except Fault α → Effect α
  | .ok a => pure a
  | .error fault => throw (.fault fault)

/-- Goes on with the answer of a type check. -/
def ofTypes {α : Type} : Except TypeError α → Effect α
  | .ok a => pure a
  | .error error => throw (.rejected (.type error))

/-- Goes on with a changed symbol table. -/
def changeSymbols (change : SymbolTable → Except Fault SymbolTable) : Effect Unit := fun s =>
  match change s.symbols with
  | .ok symbols => .ok () { s with symbols }
  | .error fault => .error (.fault fault) s

/-- Moves to the next token; a malformed token leaves the current one. -/
def takeToken : Effect Unit := fun s =>
  match s.cursor.next s.symbols with
  | .ok token cursor => .ok () { s with cursor, token }
  | .error (.malformed e) cursor => .error (.rejected (.scan e)) { s with cursor }
  | .error (.fault f) cursor => .error (.fault f) { s with cursor }

/-- Declares a symbol within the limits. -/
def declareSymbol (name : String) (kind : Symbol.Kind) (type : DataType) : Effect Nat := fun s =>
  match s.symbols.add name kind type with
  | .ok (index, symbols) => .ok index { s with symbols }
  | .error e => .error (.rejected (.limit e)) s

/-- Adds a type to the catalog. -/
def catalogType (shape : Shape) : Effect DataType := fun s =>
  .ok (s.types.add shape).1 { s with types := (s.types.add shape).2 }

/-- Performs a request. -/
def perform : {α : Type} → Request α → Effect α
  | _, look => return ((← get).token.kind, (← get).token.lexeme)
  | _, take => takeToken
  | _, write text => modify fun s => { s with output := s.output.write text }
  | _, publish text => modify fun s => { s with output := s.output.publish text }
  | _, find name => do ofTable ((← get).symbols.find name)
  | _, symbol index => do ofTable ((← get).symbols.get index)
  | _, nameOf index => do ofTable ((← get).symbols.name index)
  | _, resolve index => do ofTable ((← get).symbols.resolve index)
  | _, declare name kind type => declareSymbol name kind type
  | _, setType index type => changeSymbols fun t => t.setType index type
  | _, setSignature index exported parameters result => do
    changeSymbols fun t => t.update index fun symbol =>
      { symbol with kind := .procedure exported parameters, type := result }
    modify fun s => { s with scope := { s.scope with result } }
  | _, requireCompatible a b => do ofTypes ((← get).types.requireCompatible a b)
  | _, form type => return (← get).types.form type
  | _, element type => do ofTypes ((← get).types.element type)
  | _, addType shape => catalogType shape
  | _, nameModule name => modify fun s => { s with moduleName := name }
  | _, moduleName => return (← get).moduleName
  | _, scope => return (← get).scope

end Request
end Compilation
end Oberon
