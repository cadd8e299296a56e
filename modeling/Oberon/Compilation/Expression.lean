import Oberon.Compilation.Action
import Oberon.Target.Operator
import Oberon.Target.Text

/-!
# Expressions

Expressions are checked and written to C in one go; an action for an expression gives its type.

* an expression is one simple expression, or two around a relation, each written in parentheses;
* a simple expression is a chain of terms, with an optional sign in front (a plus is not written);
* a term is a chain of factors, written in parentheses;
* a chain has the type of its first operand, and every later operand must go with it.

Factors contain expressions; `factor` calls the rule whose action is `factorRule`.
-/

namespace Oberon
namespace Compilation

open Oberon.Compilation.Action

/-- What a designator stands for. -/
structure Designator where
  name : String
  /-- Its type as a value. -/
  type : DataType
  /-- The type of a call of it. -/
  callType : DataType := .unknown
  /-- The types of the parameters, for a procedure of this module. -/
  parameters : Option (List DataType) := none
  assignable : Bool
  deriving DecidableEq, Repr

/-- A factor. -/
def factor : Action DataType := call .factor done

/-- Takes an operator of a level and writes it. -/
def operator (level : Operator.Level) : Action Bool := do
  match (← kind).operatorAt? level with
  | none => return false
  | some op =>
    write op.text
    take
    return true

/-- Operands joined by operators of one level. -/
def chain (level : Operator.Level) (operand : Action DataType) : Action DataType := do
  let left ← operand
  repeatWhile (operator level) do
    let right ← operand
    requireCompatible left right
  return left

def term : Action DataType := do
  write "("
  let type ← chain .product factor
  write ")"
  return type

def simpleExpression : Action DataType := do
  if ← accept (.sign .minus) then write "-"
  else discard (accept (.sign .plus))
  chain .sum term

def expression : Action DataType := do
  write "("
  let left ← simpleExpression
  write ")"
  if ← operator .relation then
    write "("
    let right ← simpleExpression
    requireCompatible left right
    write ")"
    return .boolean
  else return left

/-! ### Designators -/

/-- What the symbol at an index stands for in an expression. -/
def designate (index : Nat) (name : String) : Action Designator := do
  let symbol ← symbol index
  match symbol.kind with
  | .procedure _ parameters =>
    return {
      name, type := .procedure, callType := symbol.type
      parameters := some parameters, assignable := false }
  | .constant => return { name, type := symbol.type, assignable := false }
  | .variable _ => return { name, type := symbol.type, assignable := true }
  | .parameter => return { name, type := symbol.type, assignable := true }
  | _ => reject (.misplaced name)

/--
The name in front of a designator, with the module it belongs to: the written name, or a member of a
module.
-/
def designatorName : Action (String × Designator) := do
  let (kind, name) ← look
  unless kind = .identifier do reject (.identifierExpected (kind.found name))
  let some index ← find name | reject (.undeclared name)
  let target ← resolve index
  take
  match (← symbol target).kind with
  | .thisModule =>
    expect (.sign .dot)
    let member ← identifier
    let some entry ← find member | reject (.undeclared (name ++ "." ++ member))
    return ((← moduleName), ← designate entry member)
  | .imported =>
    let owner ← nameOf target
    expect (.sign .dot)
    let member ← identifier
    return (owner, { name := member, type := .unknown, assignable := true })
  | _ => return ((← moduleName), ← designate index name)

/-- An index behind a designator: an element is no procedure of this module any more. -/
def indexed (d : Designator) : Action (Designator ⊕ Designator) := do
  if ← accept (.sign .openBracket) then
    let type ← element d.type
    write "["
    let index ← expression
    requireCompatible index .integer
    expect (.sign .closeBracket)
    write "]"
    return .inl { d with type, callType := .unknown, parameters := none }
  else return .inr d

/-- A name and its indices. -/
def designator : Action Designator := do
  let (owner, d) ← designatorName
  write (Target.mangle owner d.name)
  turns indexed d

/-! ### Calls -/

/-- Checks each argument against a parameter of a built-in scalar type. -/
def matchScalars : List DataType → List DataType → Action Unit
  | parameter :: parameters, argument :: arguments => do
    if parameter.isBuiltin && decide ((← form parameter) = .scalar)
      then requireCompatible parameter argument
    matchScalars parameters arguments
  | _, _ => pure ()

/-- Checks the arguments of a call; only procedures of this module have known parameters. -/
def matchArguments (callee : Designator) (arguments : List DataType) : Action Unit := do
  match callee.parameters with
  | none => pure ()
  | some parameters =>
    if parameters.length = arguments.length then matchScalars parameters arguments
    else reject (.argumentCount callee.name parameters.length arguments.length)

/-- A comma between two items of a list, written with a blank. -/
def listComma : Action Bool := do
  if ← accept (.sign .comma) then
    write ", "
    return true
  else return false

/-- Arguments in parentheses. -/
def arguments (callee : Designator) : Action Unit := do
  expect (.sign .openParen)
  write "("
  let types ← if ← sees (.sign .closeParen) then pure [] else separated expression listComma
  expect (.sign .closeParen)
  write ")"
  matchArguments callee types

/-! ### Factors -/

/-- A function of one argument that C writes as a fixed frame around it. -/
structure Frame where
  opening : String
  closing : String
  /-- The type demanded of the argument. -/
  operand : Option DataType
  result : DataType

/-- The frames of the built-in functions. -/
def Frame.ofKeyword? : Keyword → Option Frame
  | .ODD => some ⟨"((", ") & 1)", some .integer, .boolean⟩
  | .ORD => some ⟨"((int)(", "))", none, .integer⟩
  | .CHR => some ⟨"((char)(", "))", some .integer, .char⟩
  | .FLOOR => some ⟨"((long)floor(", "))", some .real, .longInteger⟩
  | _ => none

/-- A built-in function with a frame. -/
def framed (frame : Frame) : Action DataType := do
  take
  expect (.sign .openParen)
  write frame.opening
  let type ← expression
  match frame.operand with
  | some wanted => requireCompatible type wanted
  | none => pure ()
  write frame.closing
  expect (.sign .closeParen)
  return frame.result

/--
The absolute value; the type of the argument picks the C function, so the argument is written first.
-/
def absolute : Action DataType := do
  take
  expect (.sign .openParen)
  let (type, operand) ← textOf expression
  expect (.sign .closeParen)
  write ((if type.isReal then "fabs" else "abs") ++ "(" ++ operand ++ ")")
  return type

/-- The arithmetic shift, by way of the module's macro. -/
def shift : Action DataType := do
  take
  expect (.sign .openParen)
  write (Target.shiftMacro (← moduleName) ++ "(")
  let value ← expression
  requireCompatible value .integer
  expect (.sign .comma)
  write ", "
  let amount ← expression
  requireCompatible amount .integer
  expect (.sign .closeParen)
  write ")"
  return value

/-- A literal is written as its lexeme. -/
def literal (type : DataType) : Action DataType := do
  write (← lexeme)
  return type

/-- A variable, a constant or a call. -/
def reference : Action DataType := do
  let d ← designator
  if ← sees (.sign .openParen) then
    arguments d
    return d.callType
  else return d.type

/-- What a factor is. -/
def factorRule : Action DataType := do
  match ← kind with
  | .number numeral => literal (.ofNumeral numeral)
  | .charLiteral => literal .char
  | .stringLiteral => literal .string
  | .sign .openParen =>
    take
    write "("
    let type ← expression
    expect (.sign .closeParen)
    write ")"
    return type
  | .sign .tilde =>
    take
    write "!"
    let type ← factor
    requireCompatible type .boolean
    return .boolean
  | .keyword .ABS => absolute
  | .keyword .ASH => shift
  | .keyword word =>
    match Frame.ofKeyword? word with
    | some frame => framed frame
    | none => reject (.factorExpected (← found))
  | .identifier => reference
  | _ => reject (.factorExpected (← found))

end Compilation
end Oberon
