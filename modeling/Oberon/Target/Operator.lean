import Oberon.Token.Basic

/-!
# Binary operators

The operators of the language, their level in expressions and their spelling in C.
-/

namespace Oberon

/-- Where an operator may stand in an expression, the weakest binding first. -/
inductive Operator.Level
  | relation | sum | product
  deriving DecidableEq, Repr

/-- A binary operator. -/
inductive Operator
  | equal | notEqual | less | lessEqual | greater | greaterEqual
  | plus | minus | or
  | times | quotient | div | mod | and
  deriving DecidableEq, Repr

namespace Operator

def level : Operator → Level
  | equal | notEqual | less | lessEqual | greater | greaterEqual => .relation
  | plus | minus | or => .sum
  | times | quotient | div | mod | and => .product

/-- The operator in C, with a blank on either side. -/
def text : Operator → String
  | equal => " == "
  | notEqual => " != "
  | less => " < "
  | lessEqual => " <= "
  | greater => " > "
  | greaterEqual => " >= "
  | plus => " + "
  | minus => " - "
  | or => " || "
  | times => " * "
  | quotient => " / "
  | div => " / "
  | mod => " % "
  | and => " && "

end Operator

/-- The binary operator that a kind of token stands for. -/
def Token.Kind.operator? : Token.Kind → Option Operator
  | .sign .equal => some .equal
  | .sign .notEqual => some .notEqual
  | .sign .less => some .less
  | .sign .lessEqual => some .lessEqual
  | .sign .greater => some .greater
  | .sign .greaterEqual => some .greaterEqual
  | .sign .plus => some .plus
  | .sign .minus => some .minus
  | .keyword .OR => some .or
  | .sign .asterisk => some .times
  | .sign .slash => some .quotient
  | .keyword .DIV => some .div
  | .keyword .MOD => some .mod
  | .sign .ampersand => some .and
  | _ => none

/-- The operator of a given level that a kind of token stands for. -/
def Token.Kind.operatorAt? (kind : Token.Kind) (level : Operator.Level) : Option Operator :=
  kind.operator?.filter fun op => op.level = level

end Oberon
