import Oberon.Compilation.Expression

/-!
# Statements

A sequence of statements ends before `END`, `ELSIF`, `ELSE`, `UNTIL` or the end of the source; a
semicolon behind a statement may be missing.  Statements contain sequences; `statement` calls the
rule whose action is `statementRule`.
-/

namespace Oberon
namespace Compilation

open Oberon.Compilation.Action

/-- Whether a kind of token ends a sequence of statements. -/
def endsSequence : Token.Kind → Bool
  | .keyword .END => true
  | .keyword .ELSIF => true
  | .keyword .ELSE => true
  | .keyword .UNTIL => true
  | .eof => true
  | _ => false

/-- A statement. -/
def statement : Action Unit := call .statement done

/-- Statements up to the end of the sequence. -/
def statements : Action Unit :=
  repeatWhile (return !endsSequence (← kind)) do
    statement
    discard (accept (.sign .semicolon))

/-- An expression that can serve as a condition. -/
def condition : Action Unit := do
  let type ← expression
  requireCompatible type .boolean

/-- The right side of an assignment to a designator written as `target`. -/
def assignment (d : Designator) (target : String) : Action Unit := do
  unless d.assignable do reject (.notAssignable d.name)
  if ← sees .stringLiteral then
    if d.type ≠ .unknown ∧ (← form d.type) ≠ .array then
      reject (.type (.mismatch d.type .string))
    write ("strcpy(" ++ target ++ ", " ++ (← lexeme) ++ ")")
  else
    write (target ++ " = ")
    let value ← expression
    requireCompatible d.type value

/-- An assignment or a call; the designator is written where what follows it wants it. -/
def designatorStatement : Action Unit := do
  let (d, target) ← textOf designator
  if ← accept (.sign .assign) then assignment d target
  else if ← sees (.sign .openParen) then
    write target
    arguments d
  else
    matchArguments d []
    write (target ++ "()")
  write ";\n"

/-- A condition, the keyword behind it and the statements it guards. -/
def guarded (word : Keyword) : Action Unit := do
  condition
  write ") \x7b\n"
  expect (.keyword word)
  statements

def ifStatement : Action Unit := do
  take
  write "if ("
  guarded .THEN
  repeatWhile (accept (.keyword .ELSIF)) do
    write "\x7d else if ("
    guarded .THEN
  if ← accept (.keyword .ELSE) then
    write "\x7d else \x7b\n"
    statements
  expect (.keyword .END)
  write "\x7d\n"

def whileStatement : Action Unit := do
  take
  write "while ("
  guarded .DO
  expect (.keyword .END)
  write "\x7d\n"

def repeatStatement : Action Unit := do
  take
  write "do \x7b\n"
  statements
  expect (.keyword .UNTIL)
  write "\x7d while (!("
  condition
  write "));\n"

def returnStatement : Action Unit := do
  take
  let next ← kind
  if endsSequence next || decide (next = .sign .semicolon) then write "return;\n"
  else
    write "return "
    let type ← expression
    requireCompatible (← scope).result type
    write ";\n"

/-- Counts a variable up or down, by one or by a step. -/
def countStatement (byOne byStep : String) : Action Unit := do
  take
  expect (.sign .openParen)
  let d ← designator
  unless d.assignable do reject (.notAssignable d.name)
  if ← accept (.sign .comma) then
    write byStep
    let step ← expression
    requireCompatible d.type step
  else write byOne
  expect (.sign .closeParen)
  write ";\n"

def assertStatement : Action Unit := do
  take
  expect (.sign .openParen)
  write "if (!("
  condition
  expect (.sign .closeParen)
  write ")) abort();\n"

/-- A statement of one word. -/
def wordStatement (text : String) : Action Unit := do
  take
  write text

/-- What a statement is. -/
def statementRule : Action Unit := do
  match ← kind with
  | .identifier => designatorStatement
  | .keyword .IF => ifStatement
  | .keyword .WHILE => whileStatement
  | .keyword .REPEAT => repeatStatement
  | .keyword .RETURN => returnStatement
  | .keyword .INC => countStatement "++" " += "
  | .keyword .DEC => countStatement "--" " -= "
  | .keyword .ASSERT => assertStatement
  | .keyword .BREAK => wordStatement "break;\n"
  | .keyword .CONTINUE => wordStatement "continue;\n"
  | .sign .semicolon => pure ()
  | _ => reject (.statementExpected (← found))

end Compilation
end Oberon
