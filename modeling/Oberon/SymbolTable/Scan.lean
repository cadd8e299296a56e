import Oberon.SymbolTable.Basic
import Oberon.Token.Cursor

/-!
# Tokens against a symbol table

While a module is compiled, a word is reserved if the newest entry of its name in the symbol table
is a reserved word.
-/

namespace Oberon

/-- Why no token was obtained. -/
inductive ScanHalt
  | malformed (error : ScanError)
  | fault (fault : Fault)
  deriving DecidableEq, Repr

/-- Reads a token and classifies it by a symbol table; the cursor moves in every case. -/
def Cursor.next (symbols : SymbolTable) (c : Cursor) : EStateM.Result ScanHalt Cursor Token :=
  match c.read with
  | (.error e, behind) => .error (.malformed e) behind
  | (.ok t, behind) =>
    if t.kind = .identifier then
      match symbols.keyword? t.lexeme with
      | .error f => .error (.fault f) behind
      | .ok word => .ok (t.reserve word) behind
    else .ok t behind

end Oberon
