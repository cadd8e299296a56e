import Oberon.DataType.Basic

/-!
# Symbols

What a declared name stands for, the limits of a symbol table, and the ways in which an operation on
a table can fail.
-/

namespace Oberon

/-- What a name stands for. -/
inductive Symbol.Kind
  | reserved (word : Keyword)
  /-- The module being compiled. -/
  | thisModule
  /-- An imported module. -/
  | imported
  /-- Another name for the imported module at an index of the table. -/
  | aliasOf (target : Nat)
  | constant
  | procedure (exported : Bool) (parameters : List DataType)
  /-- A variable of the module or of a procedure. -/
  | variable (exported : Bool)
  | parameter
  deriving DecidableEq, Repr

/-- An entry of a symbol table; its name is `length` bytes of the name buffer from `start` on. -/
structure Symbol where
  start : Nat
  length : Nat
  kind : Symbol.Kind
  type : DataType
  deriving DecidableEq, Repr

/-- How many symbols, and how many bytes of names, a table may hold. -/
structure Limits where
  symbols : Nat := 512
  nameBytes : Nat := 8192
  deriving DecidableEq, Repr

/-- Limits that no table reaches. -/
def Limits.largest : Limits := ⟨18446744073709551615, 18446744073709551615⟩

/-- Which limit a declaration would exceed. -/
inductive LimitError
  | symbols
  | nameBytes
  deriving DecidableEq, Repr

/-- The wording of an exceeded limit. -/
def LimitError.message : LimitError → String
  | symbols => "Symbol table full"
  | nameBytes => "Symbol table name buffer full"

/-- A use of a symbol table outside what it holds. -/
inductive Fault
  /-- No entry has the index. -/
  | deadEntry (index : Nat)
  /-- The entry's name does not lie in the name buffer. -/
  | danglingName (index : Nat)
  /-- The name buffer has no place at the offset. -/
  | splitCharacter (bytes : Nat)
  deriving DecidableEq, Repr

end Oberon
