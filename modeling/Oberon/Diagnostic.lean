import Oberon.SymbolTable.Scan

/-!
# Diagnostics

Why a module is not accepted, and the wording of each reason.
-/

namespace Oberon

/-- A reason to reject a module. -/
inductive Diagnostic
  /-- Another kind of token was due. -/
  | expected (kind : Token.Kind) (found : String)
  | identifierExpected (found : String)
  | duplicate (name : String)
  | undeclared (name : String)
  /-- The name stands for something that has no value. -/
  | misplaced (name : String)
  | notAssignable (name : String)
  | factorExpected (found : String)
  | statementExpected (found : String)
  | typeExpected (found : String)
  | arraySizeExpected
  | constantExpected
  | varParameter
  | nestedArray
  | exportedLocal (name : String)
  /-- The name behind `END` is not that of the module or procedure. -/
  | closingName (wanted found : String)
  | argumentCount (name : String) (wanted found : Nat)
  | scan (error : ScanError)
  | limit (error : LimitError)
  | type (error : TypeError)
  deriving DecidableEq, Repr

/-- The wording of a diagnostic. -/
def Diagnostic.message : Diagnostic → String
  | expected kind found => "'" ++ kind.shown ++ "' expected, found '" ++ found ++ "'"
  | identifierExpected found => "Identifier expected, found '" ++ found ++ "'"
  | duplicate name => "Duplicate identifier '" ++ name ++ "'"
  | undeclared name => "Undeclared identifier '" ++ name ++ "'"
  | misplaced name => "'" ++ name ++ "' cannot be used here"
  | notAssignable name => "Cannot assign to '" ++ name ++ "'"
  | factorExpected found => "Factor expected, found '" ++ found ++ "'"
  | statementExpected found => "Statement expected, found '" ++ found ++ "'"
  | typeExpected found => "Type expected, found '" ++ found ++ "'"
  | arraySizeExpected => "Array size expected"
  | constantExpected => "Constant value expected"
  | varParameter => "VAR parameters not supported"
  | nestedArray => "Multi-dimensional array declarators are not supported"
  | exportedLocal name => "Local variable '" ++ name ++ "' cannot be exported"
  | closingName wanted found => "END " ++ found ++ " does not match '" ++ wanted ++ "'"
  | argumentCount name wanted found =>
    "'" ++ name ++ "' expects " ++ toString wanted ++ " arguments but got " ++ toString found
  | scan error => "Lexer error: " ++ error.message
  | limit error => error.message
  | type error => error.message

end Oberon
