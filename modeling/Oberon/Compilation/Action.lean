import Oberon.Compilation.Request

/-!
# Actions

A rule of the grammar is an action: a tree of requests, each with what to do on its answer.  Besides
requests an action can reject the module, run an action with its text captured or in a procedure
scope of its own, run a loop, or call a rule by name, which is how rules contain each other.

**Meaning.**  `Action.run` performs an action, given what the named rules do.  A halt keeps the
state reached, but captures are closed and procedure scopes left on the way out.

**Bounds.**  Every turn of a loop but the last takes a token, so a loop that starts with `n` tokens
to come makes at most `n + 1` turns, and that many are allowed.
-/

namespace Oberon
namespace Compilation

/-- The rules that contain themselves, with the type of their result. -/
inductive Rule : Type → Type
  | factor : Rule DataType
  | statement : Rule Unit

/-- What a rule of the grammar does. -/
inductive Action : Type → Type 1
  /-- Nothing more to do. -/
  | done {α : Type} (a : α) : Action α
  /-- Rejects the module. -/
  | reject {α : Type} (diagnostic : Diagnostic) : Action α
  /-- Makes a request. -/
  | ask {α β : Type} (request : Request β) (next : β → Action α) : Action α
  /-- Runs an action with its text captured. -/
  | capture {α β : Type} (body : Action β) (next : β × String → Action α) : Action α
  /-- Runs an action in a procedure scope of its own. -/
  | inProcedure {α β : Type} (body : Action β) (next : β → Action α) : Action α
  /-- Runs turns until one gives a result. -/
  | loop {α β σ : Type} (turn : σ → Action (σ ⊕ β)) (start : σ) (next : β → Action α) : Action α
  /-- Calls a rule. -/
  | call {α β : Type} (rule : Rule β) (next : β → Action α) : Action α

namespace Action

variable {α β σ : Type}

/-- One action behind another. -/
def bind {α β : Type} : Action α → (α → Action β) → Action β
  | done a, f => f a
  | reject diagnostic, _ => reject diagnostic
  | ask request next, f => ask request fun b => (next b).bind f
  | capture body next, f => capture body fun b => (next b).bind f
  | inProcedure body next, f => inProcedure body fun b => (next b).bind f
  | loop turn start next, f => loop turn start fun b => (next b).bind f
  | call rule next, f => call rule fun b => (next b).bind f

instance : Monad Action where
  pure := done
  bind := bind

theorem bind_done (action : Action α) : action.bind done = action := by
  induction action with
  | done a => rfl
  | reject diagnostic => rfl
  | ask request next ih => simp [bind, ih]
  | capture body next _ ih => simp [bind, ih]
  | inProcedure body next _ ih => simp [bind, ih]
  | loop turn start next _ ih => simp [bind, ih]
  | call rule next ih => simp [bind, ih]

theorem bind_assoc {γ : Type} (action : Action α) (f : α → Action β) (g : β → Action γ) :
    (action.bind f).bind g = action.bind fun a => (f a).bind g := by
  induction action with
  | done a => rfl
  | reject diagnostic => rfl
  | ask request next ih => simp [bind, ih]
  | capture body next _ ih => simp [bind, ih]
  | inProcedure body next _ ih => simp [bind, ih]
  | loop turn start next _ ih => simp [bind, ih]
  | call rule next ih => simp [bind, ih]

instance : LawfulMonad Action :=
  LawfulMonad.mk' Action
    (fun action => bind_done action)
    (fun _ _ => rfl)
    (fun action f g => bind_assoc action f g)

/-! ### Meaning -/

/-- Performs an effect with its text captured; the capture is closed also on a halt. -/
def captured (effect : Effect α) : Effect (α × String) := fun s =>
  match effect { s with output := s.output.openCapture } with
  | .ok a t => .ok (a, t.output.captured) { t with output := t.output.closeCapture }
  | .error halt t => .error halt { t with output := t.output.closeCapture }

/--
Leaves a procedure scope: drops its symbols and goes back to the scope of the module, whose first
symbol is at `floor`.
-/
def leave (mark : SymbolTable.Mark) (floor : Nat) : Effect Unit := fun s =>
  match s.symbols.release mark with
  | .ok _ symbols => .ok () { s with symbols, scope := .ofModule floor }
  | .error fault symbols => .error (.fault fault) { s with symbols }

/-- Performs an effect in a procedure scope of its own; the scope is left also on a halt. -/
def enclosed (effect : Effect α) : Effect α := fun s =>
  match effect s.entered with
  | .ok a t =>
    match leave s.symbols.mark s.scope.floor t with
    | .ok _ u => .ok a u
    | .error halt u => .error halt u
  | .error halt t =>
    match leave s.symbols.mark s.scope.floor t with
    | .ok _ u => .error halt u
    | .error fault u => .error fault u

/-- At most a number of turns, until one gives a result. -/
def iterate (turn : σ → Effect (σ ⊕ β)) : Nat → σ → Effect β
  | 0, _ => throw .exhausted
  | turns + 1, x => do
    match ← turn x with
    | .inl y => iterate turn turns y
    | .inr b => return b

/-- As many turns as the remaining tokens allow. -/
def repeated (turn : σ → Effect (σ ⊕ β)) (start : σ) : Effect β := fun s =>
  iterate turn (s.remaining + 1) start s

/-- Performs an action, where `rules` says what the named rules do. -/
def run (rules : {β : Type} → Rule β → Effect β) : {α : Type} → Action α → Effect α
  | _, done a => pure a
  | _, reject diagnostic => throw (.rejected diagnostic)
  | _, ask request next => do
    let answer ← request.perform
    (next answer).run rules
  | _, capture body next => do
    let result ← captured (body.run rules)
    (next result).run rules
  | _, inProcedure body next => do
    let result ← enclosed (body.run rules)
    (next result).run rules
  | _, loop turn start next => do
    let result ← repeated (fun x => (turn x).run rules) start
    (next result).run rules
  | _, call rule next => do
    let result ← rules rule
    (next result).run rules

/-- One action behind another is performed behind it. -/
theorem run_bind (rules : {β : Type} → Rule β → Effect β) (action : Action α) (f : α → Action β) :
    (action >>= f).run rules = (do let a ← action.run rules; (f a).run rules) := by
  change (action.bind f).run rules = _
  induction action with
  | done a => simp [bind, run]
  | reject diagnostic => rfl
  | ask request next ih => simp [bind, run, ih]
  | capture body next _ ih => simp [bind, run, ih]
  | inProcedure body next _ ih => simp [bind, run, ih]
  | loop turn start next _ ih => simp [bind, run, ih]
  | call rule next ih => simp [bind, run, ih]

/-! ### Tokens -/

/-- Kind and lexeme of the current token. -/
def look : Action (Token.Kind × String) := ask .look done

/-- The kind of the current token. -/
def kind : Action Token.Kind := return (← look).1

/-- The current token as a diagnostic shows it. -/
def found : Action String := do
  let (kind, lexeme) ← look
  return kind.found lexeme

/-- Takes the current token. -/
def take : Action Unit := ask .take done

/-- Takes the current token and gives its lexeme. -/
def lexeme : Action String := do
  let (_, lexeme) ← look
  take
  return lexeme

/-- Whether the current token is of a kind. -/
def sees (wanted : Token.Kind) : Action Bool := return decide ((← kind) = wanted)

/-- Takes the current token if it is of a kind. -/
def accept (wanted : Token.Kind) : Action Bool := do
  if ← sees wanted then
    take
    return true
  else return false

/-- Takes a token that must be of a kind. -/
def expect (wanted : Token.Kind) : Action Unit := do
  if ← sees wanted then take
  else reject (.expected wanted (← found))

/-- Takes an identifier. -/
def identifier : Action String := do
  if ← sees .identifier then lexeme
  else reject (.identifierExpected (← found))

/-! ### Text, symbols and types -/

/-- Writes to the implementation or the innermost capture. -/
def write (text : String) : Action Unit := ask (.write text) done

/-- Writes to the interface. -/
def publish (text : String) : Action Unit := ask (.publish text) done

/-- An action together with the text it writes. -/
def textOf (body : Action α) : Action (α × String) := capture body done

/-- The newest symbol with a name. -/
def find (name : String) : Action (Option Nat) := ask (.find name) done

/-- The symbol at an index. -/
def symbol (index : Nat) : Action Symbol := ask (.symbol index) done

/-- The name of the symbol at an index. -/
def nameOf (index : Nat) : Action String := ask (.nameOf index) done

/-- The module behind an alias, or the symbol itself. -/
def resolve (index : Nat) : Action Nat := ask (.resolve index) done

/-- Declares a symbol; gives its index. -/
def declare (name : String) (kind : Symbol.Kind) (type : DataType) : Action Nat :=
  ask (.declare name kind type) done

/-- Gives the symbol at an index its type. -/
def setType (index : Nat) (type : DataType) : Action Unit := ask (.setType index type) done

/-- The name of the module. -/
def moduleName : Action String := ask .moduleName done

/-- The innermost open scope. -/
def scope : Action Scope := ask .scope done

/-- Rejects a name that the innermost open scope declares already. -/
def requireFresh (name : String) : Action Unit := do
  match ← find name with
  | some index => if (← scope).floor ≤ index then reject (.duplicate name)
  | none => return ()

/-- Demands compatible types. -/
def requireCompatible (a b : DataType) : Action Unit := ask (.requireCompatible a b) done

/-- The form of a type. -/
def form (type : DataType) : Action Form := ask (.form type) done

/-- The type of the elements of an array. -/
def element (type : DataType) : Action DataType := ask (.element type) done

/-- Adds a type. -/
def addType (shape : Shape) : Action DataType := ask (.addType shape) done

/-! ### Loops -/

/-- Runs turns until one gives a result. -/
def turns (turn : σ → Action (σ ⊕ β)) (start : σ) : Action β := loop turn start done

/-- Runs an action as long as another one says so before it. -/
def repeatWhile (more : Action Bool) (body : Action Unit) : Action Unit :=
  turns (fun _ => do
    if ← more then
      body
      return .inl ()
    else return .inr ()) ()

/-- One or more items; the action behind each item says whether another one follows. -/
def separated (item : Action α) (more : Action Bool) : Action (List α) :=
  turns (fun items => do
    let a ← item
    if ← more then return .inl (a :: items)
    else return .inr (a :: items).reverse) []

end Action
end Compilation
end Oberon
