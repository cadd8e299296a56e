import Oberon.Compilation.Declaration

/-!
# Modules

The rule of the grammar for a whole module, and what it means to perform it.  `compile` turns the
source of a module into the texts of its two units, or tells on which line it failed and why.
-/

namespace Oberon
namespace Compilation

open Oberon.Compilation.Action

/-- A group of declarations, if one follows. -/
def declarations : Action Bool := do
  if ← accept (.keyword .CONST) then
    constantDeclarations
    return true
  else if ← accept (.keyword .VAR) then
    variableDeclarations
    return true
  else if ← accept (.keyword .PROCEDURE) then
    procedureDeclaration
    return true
  else return false

/-- The head of a module: its name is declared and the interface opened. -/
def moduleHead : Action Unit := do
  expect (.keyword .MODULE)
  let name ← identifier
  discard (declare name .thisModule .unknown)
  ask (.nameModule name) done
  expect (.sign .semicolon)
  publish (Target.interfaceHead name)

/-- The body of a module, written as its initializer. -/
def moduleBody : Action Unit := do
  write (Target.initializerHead (← moduleName))
  if ← accept (.keyword .BEGIN) then statements
  write "\x7d\n"

/-- The end of a module and of its source. -/
def moduleEnd : Action Unit := do
  expect (.keyword .END)
  closingName (← moduleName)
  expect (.sign .dot)
  expect .eof
  publish (Target.interfaceTail (← moduleName))

/-- A module whose implementation includes its interface as `header`. -/
def wholeModule (header : String) : Action Unit := do
  moduleHead
  repeatWhile (accept (.keyword .IMPORT)) importList
  write (Target.includeLine header)
  write "\n"
  repeatWhile declarations (pure ())
  moduleBody
  moduleEnd

/-! ### Performing the rules -/

/-- What a rule does. -/
def Rule.action : {α : Type} → Rule α → Action α
  | _, factor => factorRule
  | _, statement => statementRule

/-- Performs a rule with at most a number of rules inside each other. -/
def Rule.run : Nat → {α : Type} → Rule α → Effect α
  | 0, _, _ => throw .exhausted
  | depth + 1, _, rule => rule.action.run (Rule.run depth)

/-- Performs an action; no two rules that stand inside each other start at one token. -/
def Action.perform {α : Type} (action : Action α) : Effect α := fun s =>
  action.run (Rule.run (s.remaining + 1)) s

end Compilation

/-- Where and why a source was not compiled. -/
structure CompileError where
  source : String
  line : Nat
  halt : Compilation.Halt
  deriving DecidableEq, Repr

/-- Source, line and reason of a failure. -/
def CompileError.message (e : CompileError) : String :=
  e.source ++ ":" ++ toString e.line ++ ": " ++ e.halt.message

/--
Compiles the source of a module.  `name` labels the source in errors and `header` is how the
implementation includes the interface.  An error at the first token counts as one of line 1.
-/
def compile (name source header : String) (limits : Limits) : Except CompileError Units :=
  match Compilation.State.start source limits with
  | .error halt => .error ⟨name, 1, halt⟩
  | .ok s =>
    match (Compilation.wholeModule header).perform s with
    | .ok _ t => .ok t.output.units
    | .error halt t => .error ⟨name, t.line, halt⟩

end Oberon
