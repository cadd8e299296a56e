import Oberon.Token.Basic

/-!
# Data types

Types are numbered.  The ten built-in types have fixed numbers; arrays and pointers declared in a
module are numbered from `DataType.firstDeclared` on, in the order in which a `TypeCatalog` lists
them.
-/

namespace Oberon

/-- A type, by its number. -/
structure DataType where
  number : Nat
  deriving DecidableEq, Repr

namespace DataType

/-- No known type; it goes with every type, and is also the result of a procedure without one. -/
def unknown : DataType := ⟨0⟩

def integer : DataType := ⟨1⟩

def longInteger : DataType := ⟨2⟩

def real : DataType := ⟨3⟩

def longReal : DataType := ⟨4⟩

def boolean : DataType := ⟨5⟩

def char : DataType := ⟨6⟩

/-- The type of string literals. -/
def string : DataType := ⟨7⟩

/-- The type of `NIL`. -/
def nil : DataType := ⟨8⟩

/-- The type of procedures used as values. -/
def procedure : DataType := ⟨9⟩

/-- The number of the first type that a module can declare. -/
def firstDeclared : Nat := 10

/-- The type that a reserved word carries. -/
def ofKeyword : Keyword → DataType
  | .INTEGER => integer
  | .LONGINT => longInteger
  | .REAL => real
  | .LONGREAL => longReal
  | .BOOLEAN => boolean
  | .TRUE => boolean
  | .FALSE => boolean
  | .CHAR => char
  | .NIL => nil
  | _ => unknown

/-- The type of a number token. -/
def ofNumeral : Numeral → DataType
  | .integer => integer
  | .real => real
  | .boolean => boolean
  | .nil => nil

def isInteger (t : DataType) : Bool :=
  t == integer || t == longInteger

def isReal (t : DataType) : Bool :=
  t == real || t == longReal

def isBuiltin (t : DataType) : Bool :=
  decide (t.number < firstDeclared)

/-- A type is shown as its number. -/
def shown (t : DataType) : String := toString t.number

end DataType

/-- Why a check of types failed. -/
inductive TypeError
  | mismatch (left right : DataType)
  | arrayExpected
  deriving DecidableEq, Repr

/-- The wording of a type error. -/
def TypeError.message : TypeError → String
  | mismatch left right => "Type mismatch: " ++ left.shown ++ " != " ++ right.shown
  | arrayExpected => "Array expected"

end Oberon
