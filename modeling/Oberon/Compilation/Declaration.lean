import Oberon.Compilation.Statement
import Oberon.Token.Magnitude

/-!
# Declarations

Imports, constants, variables, types and procedures.  Names that share a type are declared first and
get their type when it has been read.
-/

namespace Oberon
namespace Compilation

open Oberon.Compilation.Action

/-- A type together with the C text to the left and to the right of a name that has it. -/
structure Declarator where
  type : DataType
  left : String
  right : String := ""
  deriving DecidableEq, Repr

/-- The declaration of a name of a module. -/
def Declarator.around (d : Declarator) (module name : String) : String :=
  Target.declaration d.left module name d.right

/-! ### Types -/

/-- The member of a module, where the current token names the module at an index. -/
def memberOf (target : Nat) : Action String := do
  let owner ← nameOf target
  take
  expect (.sign .dot)
  let member ← identifier
  return Target.mangle owner member

/-- A built-in type, a member of a module, or an undeclared name, which is taken over as it is. -/
def basicType : Action Declarator := do
  match ← kind with
  | .keyword word =>
    match Target.builtinType? word with
    | some name =>
      take
      return ⟨.ofKeyword word, name, ""⟩
    | none => reject (.typeExpected (← found))
  | .identifier =>
    let (_, name) ← look
    match ← find name with
    | none =>
      take
      return ⟨.unknown, name, ""⟩
    | some index =>
      let target ← resolve index
      match (← symbol target).kind with
      | .imported => return ⟨.unknown, ← memberOf target, ""⟩
      | .thisModule => return ⟨.unknown, ← memberOf target, ""⟩
      | _ => reject (.typeExpected name)
  | _ => reject (.typeExpected (← found))

/--
The size of an array as C writes it, a literal or a constant, and its length; only a literal has a
known length.
-/
def arraySize : Action (String × Nat) := do
  match ← kind with
  | .number .integer =>
    let size ← lexeme
    return (size, Magnitude.arrayLength size)
  | .identifier =>
    let (_, name) ← look
    let some index ← find name | reject .arraySizeExpected
    let target ← resolve index
    match (← symbol target).kind with
    | .imported => return (← memberOf target, 0)
    | .thisModule => return (← memberOf target, 0)
    | .constant =>
      take
      return (Target.mangle (← moduleName) name, 0)
    | _ => reject .arraySizeExpected
  | _ => reject .arraySizeExpected

/-- A pointer, a procedure or a basic type. -/
def elementDeclarator : Action Declarator := do
  if ← accept (.keyword .POINTER) then
    if ← accept (.keyword .TO) then
      let base ← basicType
      return ⟨← addType ⟨.pointer, base.type, 0⟩, base.left ++ " *", ""⟩
    else return ⟨← addType ⟨.pointer, .unknown, 0⟩, "void *", ""⟩
  else if ← accept (.keyword .PROCEDURE) then return ⟨.procedure, "void (*", ")()"⟩
  else basicType

/-- A type; the elements of an array are not arrays. -/
def declaredType : Action Declarator := do
  if ← accept (.keyword .ARRAY) then
    let (size, length) ← arraySize
    expect (.keyword .OF)
    if ← sees (.keyword .ARRAY) then reject .nestedArray
    let element ← elementDeclarator
    let type ← addType ⟨.array, element.type, length⟩
    return ⟨type, element.left, "[" ++ size ++ "]" ++ element.right⟩
  else elementDeclarator

/-! ### Imports and constants -/

/-- One entry of an import list, which may be empty: a module, or another name for a module. -/
def importEntry : Action Unit := do
  if ← sees .identifier then
    let name ← identifier
    requireFresh name
    if ← accept (.sign .assign) then
      let real ← identifier
      requireFresh real
      let target ← declare real .imported .unknown
      discard (declare name (.aliasOf target) .unknown)
      write (Target.includeLine (real ++ ".h"))
    else
      discard (declare name .imported .unknown)
      write (Target.includeLine (name ++ ".h"))

def importList : Action Unit := do
  discard (separated importEntry (accept (.sign .comma)))
  expect (.sign .semicolon)

/-- The value of a constant: a literal, and only a number may have a minus in front. -/
def constantValue : Action (String × DataType) := do
  let negated ← accept (.sign .minus)
  match ← kind with
  | .number .integer => return (signed negated (← lexeme), .integer)
  | .number .real => return (signed negated (← lexeme), .real)
  | .number numeral =>
    if negated then reject .constantExpected else return (← lexeme, .ofNumeral numeral)
  | .charLiteral => if negated then reject .constantExpected else return (← lexeme, .char)
  | .stringLiteral => if negated then reject .constantExpected else return (← lexeme, .string)
  | _ => reject .constantExpected
where
  signed (negated : Bool) (value : String) : String :=
    if negated then "(-" ++ value ++ ")" else value

def constantDeclaration : Action Unit := do
  let name ← identifier
  let exported ← accept (.sign .asterisk)
  expect (.sign .equal)
  let (value, type) ← constantValue
  expect (.sign .semicolon)
  requireFresh name
  discard (declare name .constant type)
  let line := Target.constantLine (← moduleName) name value
  if exported then publish line else write line

def constantDeclarations : Action Unit :=
  repeatWhile (sees .identifier) constantDeclaration

/-! ### Variables -/

/-- A name in a list of names that share a type. -/
structure Named where
  index : Nat
  name : String
  exported : Bool := false

/-- Declares a variable whose type follows later. -/
def variableName : Action Named := do
  let name ← identifier
  let exported ← accept (.sign .asterisk)
  if exported && decide ((← scope).owner = .procedure) then reject (.exportedLocal name)
  requireFresh name
  return ⟨← declare name (.variable exported) .unknown, name, exported⟩

/-- Gives a variable its type and writes its declaration. -/
def variableOf (d : Declarator) (v : Named) : Action Unit := do
  setType v.index d.type
  let declaration := d.around (← moduleName) v.name
  match (← scope).owner, v.exported with
  | .module, true =>
    write (declaration ++ ";\n")
    publish ("extern " ++ declaration ++ ";\n")
  | .module, false => write ("static " ++ declaration ++ ";\n")
  | .procedure, _ => write (declaration ++ ";\n")

def variableDeclaration : Action Unit := do
  let names ← separated variableName (accept (.sign .comma))
  expect (.sign .colon)
  let d ← declaredType
  expect (.sign .semicolon)
  names.forM (variableOf d)

def variableDeclarations : Action Unit :=
  repeatWhile (sees .identifier) variableDeclaration

/-! ### Procedures -/

/-- Demands the name of a module or procedure behind its `END`. -/
def closingName (wanted : String) : Action Unit := do
  let name ← identifier
  unless name = wanted do reject (.closingName wanted name)

/-- Declares a parameter whose type follows later. -/
def parameterName : Action Named := do
  let name ← identifier
  requireFresh name
  return ⟨← declare name .parameter .unknown, name, false⟩

/-- Gives a parameter its type; its type and its declaration. -/
def parameterOf (d : Declarator) (p : Named) : Action (DataType × String) := do
  setType p.index d.type
  return (d.type, d.around (← moduleName) p.name)

/-- Parameters that share a type. -/
def parameterGroup : Action (List (DataType × String)) := do
  if ← sees (.keyword .VAR) then reject .varParameter
  let names ← separated parameterName (accept (.sign .comma))
  expect (.sign .colon)
  let d ← declaredType
  names.mapM (parameterOf d)

/-- The parameters of a procedure; the parentheses around them may be missing. -/
def parameterList : Action (List (DataType × String)) := do
  if ← accept (.sign .openParen) then
    let groups ← if ← sees (.sign .closeParen) then pure []
      else separated parameterGroup (accept (.sign .semicolon))
    expect (.sign .closeParen)
    return groups.flatten
  else return []

/-- The result type of a procedure, if it has one. -/
def resultType : Action Declarator := do
  if ← accept (.sign .colon) then declaredType
  else return ⟨.unknown, "void", ""⟩

/-- The C signature of a procedure. -/
def signature (module name : String) (result : Declarator) (parameters : List String) : String :=
  let list := if parameters.isEmpty then "void" else ", ".intercalate parameters
  result.left ++ " " ++ Target.mangle module name ++ "(" ++ list ++ ")" ++ result.right

/-- The header of a procedure: its entry is completed and its signature written. -/
def procedureHeader (entry : Nat) (name : String) (exported : Bool) : Action Unit := do
  let parameters ← parameterList
  let result ← resultType
  expect (.sign .semicolon)
  ask (.setSignature entry exported (parameters.map (·.1)) result.type) done
  let text := signature (← moduleName) name result (parameters.map (·.2))
  write ("\n" ++ (if exported then "" else "static ") ++ text ++ " \x7b\n")
  if exported then publish ("extern " ++ text ++ ";\n")

/-- The local variables and statements of a procedure. -/
def procedureBody (name : String) : Action Unit := do
  repeatWhile (accept (.keyword .VAR)) variableDeclarations
  if ← accept (.keyword .BEGIN) then statements
  expect (.keyword .END)
  closingName name
  expect (.sign .semicolon)
  write "\x7d\n"

def procedureDeclaration : Action Unit := do
  let name ← identifier
  let exported ← accept (.sign .asterisk)
  requireFresh name
  let entry ← declare name (.procedure exported []) .unknown
  inProcedure (do procedureHeader entry name exported; procedureBody name) done

end Compilation
end Oberon
