import Oberon.DataType.Catalog
import Oberon.Diagnostic
import Oberon.Target.Output

/-!
# The state of a compilation

A module is compiled in one pass with one token of look-ahead.  The state holds the source behind
that token, what has been declared so far, and the text written so far.  It survives a halt, so that
the place of an error and the unfinished text can be inspected.
-/

namespace Oberon
namespace Compilation

/-- Why a compilation stopped early. -/
inductive Halt
  | rejected (diagnostic : Diagnostic)
  /-- The symbol table was used outside what it holds. -/
  | fault (fault : Fault)
  /-- More turns or levels of nesting than the source has tokens. -/
  | exhausted
  deriving DecidableEq, Repr

/-- The wording of a halt. -/
def Halt.message : Halt → String
  | rejected diagnostic => diagnostic.message
  | fault _ => "Symbol table misused"
  | exhausted => "No progress"

/-- What the declarations of a scope belong to. -/
inductive Scope.Owner
  | module | procedure
  deriving DecidableEq, Repr

/-- An open scope. -/
structure Scope where
  owner : Scope.Owner
  /-- The index of its first symbol. -/
  floor : Nat
  /-- The result type of its procedure. -/
  result : DataType := .unknown
  deriving DecidableEq, Repr

/-- The scope of a module, whose first symbol is at `floor`. -/
def Scope.ofModule (floor : Nat) : Scope := ⟨.module, floor, .unknown⟩

@[simp] theorem Scope.ofModule_floor (floor : Nat) : (ofModule floor).floor = floor := rfl

/-- The state of a compilation. -/
structure State where
  /-- The source behind the current token. -/
  cursor : Cursor
  /-- The current token. -/
  token : Token
  symbols : SymbolTable
  types : TypeCatalog := .builtin
  output : Output := {}
  /-- The name of the module, once it is known. -/
  moduleName : String := ""
  /-- The innermost open scope. -/
  scope : Scope
  deriving DecidableEq, Repr

namespace State

/-- The line that the source has been read to. -/
def line (s : State) : Nat := s.cursor.position.line

/-- A bound for the number of tokens still to come, the current one included. -/
def remaining (s : State) : Nat :=
  s.cursor.rest.length + if s.token.kind = .eof then 0 else 1

/-- The state in the scope of a procedure that begins here. -/
def entered (s : State) : State :=
  { s with scope := { s.scope with owner := .procedure, floor := s.symbols.mark.entries } }

section Entered

variable (s : State)

@[simp] theorem entered_cursor : s.entered.cursor = s.cursor := rfl

@[simp] theorem entered_token : s.entered.token = s.token := rfl

@[simp] theorem entered_symbols : s.entered.symbols = s.symbols := rfl

@[simp] theorem entered_types : s.entered.types = s.types := rfl

@[simp] theorem entered_output : s.entered.output = s.output := rfl

@[simp] theorem entered_remaining : s.entered.remaining = s.remaining := rfl

end Entered

/-- The state at the first token of a source, with the reserved words declared. -/
def start (source : String) (limits : Limits) : Except Halt State :=
  match (SymbolTable.empty limits).seed with
  | .error e _ => .error (.rejected (.limit e))
  | .ok _ symbols =>
    match (Cursor.ofText source).next symbols with
    | .error (.malformed e) _ => .error (.rejected (.scan e))
    | .error (.fault f) _ => .error (.fault f)
    | .ok token cursor => .ok { cursor, token, symbols, scope := .ofModule symbols.size }

end State
end Compilation
end Oberon
