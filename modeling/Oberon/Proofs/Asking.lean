import Oberon.Proofs.Moment

/-!
# What the rules are made of

Expressions and statements take tokens, look up what is declared, and write to the implementation;
besides these, types and the signatures of procedures are only ever entered for symbols that are
declared already.

**Atoms.**  `MadeOf atoms action` says that an action is put together from atoms by the forms of
actions, procedure scopes and calls of rules apart.  What holds of the atoms holds of everything
that is made of them (`MadeOf.honors`).
* `tokenAtoms` look at tokens and take them;
* `readingAtoms` leave the symbol table, the catalog of types and the interface as they are;
* `steadyAtoms` leave the symbol table, the scope and the name of the module as they are.

**Requests.**  `reading` has the requests of what only reads, `steady` those that leave the symbol
table as it is (`Gives.steady`), `unnaming` those that declare no name; `everything` has all, and
what uses it rejects for reasons of the grammar only.
-/

namespace Oberon

namespace Compilation

open Oberon.Compilation.Action

set_option synthInstance.maxSize 4096

/-! ### Atoms -/

/-- A class of actions. -/
abbrev Atoms := (α : Type) → Action α → Prop

/-- The action is put together from atoms. -/
class inductive MadeOf (atoms : Atoms) : {α : Type} → Action α → Prop
  | atom {α : Type} {action : Action α} : atoms α action → MadeOf atoms action
  | pure {α : Type} (a : α) : MadeOf atoms (Pure.pure a)
  | reject {α : Type} (diagnostic : Diagnostic) :
      diagnostic.OfRules → MadeOf atoms (Action.reject diagnostic : Action α)
  | bind {α β : Type} {x : Action α} {f : α → Action β} :
      MadeOf atoms x → (∀ a, MadeOf atoms (f a)) → MadeOf atoms (x >>= f)
  | textOf {α : Type} {body : Action α} : MadeOf atoms body → MadeOf atoms (Action.textOf body)
  | turns {β σ : Type} {turn : σ → Action (σ ⊕ β)} {start : σ} :
      (∀ x, MadeOf atoms (turn x)) → MadeOf atoms (Action.turns turn start)

namespace MadeOf

variable {α β σ : Type} {atoms : Atoms}

instance (a : α) : MadeOf atoms (Pure.pure a : Action α) := .pure a

instance (diagnostic : Diagnostic) [h : diagnostic.OfRules] :
    MadeOf atoms (Action.reject diagnostic : Action α) :=
  .reject diagnostic h

instance
    (x : Action α)
    (f : α → Action β)
    [hx : MadeOf atoms x]
    [hf : ∀ a, MadeOf atoms (f a)] :
    MadeOf atoms (x >>= f) :=
  .bind hx hf

instance (f : α → β) (x : Action α) [MadeOf atoms x] : MadeOf atoms (f <$> x) := by
  rw [← bind_pure_comp]
  infer_instance

instance (x : Action α) [MadeOf atoms x] : MadeOf atoms (discard x) :=
  inferInstanceAs (MadeOf atoms ((fun _ => ()) <$> x))

instance ite (p : Prop) [Decidable p] (x y : Action α) [hx : MadeOf atoms x] [hy : MadeOf atoms y] :
    MadeOf atoms (if p then x else y) := by
  split
  · exact hx
  · exact hy

instance (body : Action α) [h : MadeOf atoms body] : MadeOf atoms (Action.textOf body) := .textOf h

instance
    (turn : σ → Action (σ ⊕ β)) (start : σ) [h : ∀ x, MadeOf atoms (turn x)] :
    MadeOf atoms (Action.turns turn start) :=
  .turns h

instance (more : Action Bool) (body : Action Unit) [MadeOf atoms more] [MadeOf atoms body] :
    MadeOf atoms (repeatWhile more body) := by
  unfold repeatWhile
  infer_instance

instance (item : Action α) (more : Action Bool) [MadeOf atoms item] [MadeOf atoms more] :
    MadeOf atoms (separated item more) := by
  unfold separated
  infer_instance

theorem mono
    {action : Action α}
    {more : Atoms}
    (hmore : ∀ (β : Type) (x : Action β), atoms β x → more β x)
    (h : MadeOf atoms action) :
    MadeOf more action := by
  induction h with
  | atom hatom => exact .atom (hmore _ _ hatom)
  | pure a => exact .pure a
  | reject diagnostic hrules => exact .reject diagnostic hrules
  | bind _ _ hx hf => exact .bind hx hf
  | textOf _ hbody => exact .textOf hbody
  | turns _ hturn => exact .turns hturn

/-- What is made of atoms that make allowed requests only makes allowed requests only. -/
theorem uses
    {action : Action α}
    {allowed : Requests}
    (hatom : ∀ (β : Type) (x : Action β), atoms β x → Uses allowed x)
    (h : MadeOf atoms action) :
    Uses allowed action := by
  induction h with
  | atom h => exact hatom _ _ h
  | pure a => infer_instance
  | reject diagnostic _ => infer_instance
  | bind _ _ hx hf => exact .bind hf
  | textOf _ hbody => infer_instance
  | turns _ hturn => infer_instance

section Honors

variable {terms : Terms} {P : State → Prop}

/--
A condition that the atoms keep, and that is fit for the terms, is kept by what is made of them.
-/
theorem honors
    {depth : Nat}
    (hatom : ∀ (β : Type) (x : Action β), atoms β x → Honors terms depth P x fun _ => P)
    (hmoment : ∀ s, P s → terms.moment none s)
    (hreject : ∀ (diagnostic : Diagnostic) s, diagnostic.OfRules → P s →
      terms.halt (.rejected diagnostic) s)
    (hexhausted : ∀ s, P s → terms.halt .exhausted s)
    (hopen : ∀ s : State, P s → P { s with output := s.output.openCapture })
    (hclose : ∀ s : State, P s → P { s with output := s.output.closeCapture })
    (hhalt : ∀ halt (s : State), terms.halt halt s →
      terms.halt halt { s with output := s.output.closeCapture })
    (action : Action α)
    [h : MadeOf atoms action] :
    Honors terms depth P action fun _ => P := by
  induction h with
  | atom h => exact hatom _ _ h
  | pure a => exact .pure hmoment fun _ hs => hs
  | reject diagnostic hdiagnostic =>
    exact .reject hmoment fun s hs => hreject diagnostic s hdiagnostic hs
  | bind _ _ hx hf => exact hx.bind hf
  | textOf _ hbody =>
    exact hbody.textOf (fun s hs => ⟨hmoment s hs, hopen s hs⟩)
      (fun _ t ht => ⟨hmoment _ (hclose t ht), hclose t ht⟩) hhalt
  | turns _ hturn =>
    refine .turns (R := fun _ => P) (fun x => (hturn x).weaken (fun _ hs => hs) ?_) hmoment
      (fun _ => hmoment)
      fun _ => hexhausted
    rintro (y | b) t ht <;> exact ht

/-- The same for the rules, where the atoms may call them. -/
theorem honors_call
    (hmade : ∀ {β : Type} (rule : Rule β), MadeOf atoms rule.action)
    (hatom : ∀ depth,
      (∀ {β : Type} (rule : Rule β), Honors terms depth P (Action.call rule done) fun _ => P) →
      ∀ (β : Type) (x : Action β), atoms β x → Honors terms depth P x fun _ => P)
    (hmoment : ∀ s, P s → terms.moment none s)
    (hreject : ∀ (diagnostic : Diagnostic) s, diagnostic.OfRules → P s →
      terms.halt (.rejected diagnostic) s)
    (hexhausted : ∀ s, P s → terms.halt .exhausted s)
    (hopen : ∀ s : State, P s → P { s with output := s.output.openCapture })
    (hclose : ∀ s : State, P s → P { s with output := s.output.closeCapture })
    (hhalt : ∀ halt (s : State), terms.halt halt s →
      terms.halt halt { s with output := s.output.closeCapture })
    (depth : Nat)
    (rule : Rule α) :
    Honors terms depth P (Action.call rule done) fun _ => P := by
  induction depth generalizing α with
  | zero => exact .call_zero hmoment hexhausted
  | succ depth ih =>
    exact .call_succ hmoment (fun _ => hmoment)
      (honors (hatom depth ih) hmoment hreject hexhausted hopen hclose hhalt rule.action
        (h := hmade rule))

end Honors

end MadeOf

/-- The atoms of what only looks at tokens and takes them. -/
inductive tokenAtoms : Atoms
  | look : tokenAtoms _ look
  | take : tokenAtoms _ take

/--
The atoms of what only reads: besides rules and requests without an index, the ways to look a name
up.
-/
inductive readingAtoms : Atoms
  | token {α : Type} {action : Action α} : tokenAtoms α action → readingAtoms α action
  | rule {α : Type} (rule : Rule α) : readingAtoms α (call rule done)
  | write (text : String) : readingAtoms _ (write text)
  | moduleName : readingAtoms _ moduleName
  | scope : readingAtoms _ Action.scope
  | requireCompatible (a b : DataType) : readingAtoms _ (requireCompatible a b)
  | form (type : DataType) : readingAtoms _ (form type)
  | element (type : DataType) : readingAtoms _ (element type)
  | requireFresh (name : String) : readingAtoms _ (requireFresh name)
  | designatorName : readingAtoms _ designatorName
  | basicType : readingAtoms _ basicType
  | arraySize : readingAtoms _ arraySize

/--
The atoms of what leaves the declared names alone: it may also add types and write to the interface.
-/
inductive steadyAtoms : Atoms
  | reading {α : Type} {action : Action α} : readingAtoms α action → steadyAtoms α action
  | publish (text : String) : steadyAtoms _ (publish text)
  | addType (shape : Shape) : steadyAtoms _ (addType shape)

section Token

instance : MadeOf tokenAtoms look := .atom .look

instance : MadeOf tokenAtoms take := .atom .take

instance : MadeOf tokenAtoms kind := by unfold kind; infer_instance

instance : MadeOf tokenAtoms found := by unfold found; infer_instance

instance : MadeOf tokenAtoms lexeme := by unfold lexeme; infer_instance

instance (wanted : Token.Kind) : MadeOf tokenAtoms (sees wanted) := by unfold sees; infer_instance

instance (wanted : Token.Kind) :
    MadeOf tokenAtoms (accept wanted) := by
  unfold accept
  infer_instance

instance (wanted : Token.Kind) :
    MadeOf tokenAtoms (expect wanted) := by
  unfold expect
  infer_instance

instance : MadeOf tokenAtoms identifier := by unfold identifier; infer_instance

end Token

section Reading

instance
    (priority := low)
    {α : Type}
    (action : Action α)
    [h : MadeOf tokenAtoms action] :
    MadeOf readingAtoms action :=
  h.mono fun _ _ => .token

instance {α : Type} (rule : Rule α) : MadeOf readingAtoms (call rule done) := .atom (.rule rule)

instance (text : String) : MadeOf readingAtoms (write text) := .atom (.write text)

instance : MadeOf readingAtoms moduleName := .atom .moduleName

instance : MadeOf readingAtoms Action.scope := .atom .scope

instance (a b : DataType) :
    MadeOf readingAtoms (requireCompatible a b) :=
  .atom (.requireCompatible a b)

instance (type : DataType) : MadeOf readingAtoms (form type) := .atom (.form type)

instance (type : DataType) : MadeOf readingAtoms (element type) := .atom (.element type)

instance (name : String) : MadeOf readingAtoms (requireFresh name) := .atom (.requireFresh name)

instance : MadeOf readingAtoms designatorName := .atom .designatorName

instance : MadeOf readingAtoms basicType := .atom .basicType

instance : MadeOf readingAtoms arraySize := .atom .arraySize

/-! ### Expressions -/

instance : MadeOf readingAtoms factor := by unfold factor; infer_instance

instance (level : Operator.Level) : MadeOf readingAtoms (operator level) := by
  unfold operator
  refine .bind inferInstance fun next => ?_
  split <;> infer_instance

instance (level : Operator.Level) (operand : Action DataType) [MadeOf readingAtoms operand] :
    MadeOf readingAtoms (chain level operand) := by
  unfold chain
  infer_instance

instance : MadeOf readingAtoms term := by unfold term; infer_instance

instance : MadeOf readingAtoms simpleExpression := by unfold simpleExpression; infer_instance

instance : MadeOf readingAtoms expression := by unfold expression; infer_instance

instance (d : Designator) : MadeOf readingAtoms (indexed d) := by unfold indexed; infer_instance

instance : MadeOf readingAtoms designator := by unfold designator; infer_instance

instance (parameters arguments : List DataType) :
    MadeOf readingAtoms (matchScalars parameters arguments) := by
  fun_induction matchScalars parameters arguments <;> infer_instance

instance (callee : Designator) (arguments : List DataType) :
    MadeOf readingAtoms (matchArguments callee arguments) := by
  unfold matchArguments
  split <;> infer_instance

instance : MadeOf readingAtoms listComma := by unfold listComma; infer_instance

instance (callee : Designator) :
    MadeOf readingAtoms (arguments callee) := by
  unfold arguments
  infer_instance

instance (frame : Frame) : MadeOf readingAtoms (framed frame) := by
  obtain ⟨opening, closing, operand, result⟩ := frame
  unfold framed
  cases operand <;> infer_instance

instance : MadeOf readingAtoms absolute := by unfold absolute; infer_instance

instance : MadeOf readingAtoms shift := by unfold shift; infer_instance

instance (type : DataType) : MadeOf readingAtoms (literal type) := by unfold literal; infer_instance

instance : MadeOf readingAtoms reference := by unfold reference; infer_instance

instance : MadeOf readingAtoms factorRule := by
  unfold factorRule
  refine .bind inferInstance fun next => ?_
  split <;> try infer_instance
  split <;> infer_instance

/-! ### Statements -/

instance : MadeOf readingAtoms statement := by unfold statement; infer_instance

instance : MadeOf readingAtoms statements := by unfold statements; infer_instance

instance : MadeOf readingAtoms condition := by unfold condition; infer_instance

instance (d : Designator) (target : String) : MadeOf readingAtoms (assignment d target) := by
  unfold assignment
  infer_instance

instance : MadeOf readingAtoms designatorStatement := by unfold designatorStatement; infer_instance

instance (word : Keyword) : MadeOf readingAtoms (guarded word) := by unfold guarded; infer_instance

instance : MadeOf readingAtoms ifStatement := by unfold ifStatement; infer_instance

instance : MadeOf readingAtoms whileStatement := by unfold whileStatement; infer_instance

instance : MadeOf readingAtoms repeatStatement := by unfold repeatStatement; infer_instance

instance : MadeOf readingAtoms returnStatement := by unfold returnStatement; infer_instance

instance (byOne byStep : String) : MadeOf readingAtoms (countStatement byOne byStep) := by
  unfold countStatement
  infer_instance

instance : MadeOf readingAtoms assertStatement := by unfold assertStatement; infer_instance

instance (text : String) :
    MadeOf readingAtoms (wordStatement text) := by
  unfold wordStatement
  infer_instance

instance : MadeOf readingAtoms statementRule := by
  unfold statementRule
  refine .bind inferInstance fun next => ?_
  split <;> infer_instance

instance {α : Type} (rule : Rule α) : MadeOf readingAtoms rule.action := by
  cases rule <;> (unfold Rule.action; infer_instance)

instance : MadeOf readingAtoms constantValue := by
  unfold constantValue
  refine .bind inferInstance fun negated => .bind inferInstance fun next => ?_
  split <;> infer_instance

instance (wanted : String) :
    MadeOf readingAtoms (closingName wanted) := by
  unfold closingName
  infer_instance

end Reading

/-! ### Types -/

section Steady

instance
    (priority := low)
    {α : Type}
    (action : Action α)
    [h : MadeOf readingAtoms action] :
    MadeOf steadyAtoms action :=
  h.mono fun _ _ => .reading

instance (text : String) : MadeOf steadyAtoms (publish text) := .atom (.publish text)

instance (shape : Shape) : MadeOf steadyAtoms (addType shape) := .atom (.addType shape)

instance : MadeOf steadyAtoms elementDeclarator := by unfold elementDeclarator; infer_instance

instance : MadeOf steadyAtoms declaredType := by unfold declaredType; infer_instance

instance : MadeOf steadyAtoms resultType := by unfold resultType; infer_instance

instance : MadeOf steadyAtoms moduleBody := by unfold moduleBody; infer_instance

instance : MadeOf steadyAtoms moduleEnd := by unfold moduleEnd; infer_instance

end Steady

/-! ### Requests -/

/-- The requests that change nothing but the current token and the text of the implementation. -/
def reading : Requests
  | _, .publish _ => False
  | _, .declare _ _ _ => False
  | _, .setType _ _ => False
  | _, .setSignature _ _ _ _ => False
  | _, .addType _ => False
  | _, .nameModule _ => False
  | _, _ => True

/-- The requests that change neither the declared names nor what is known of them. -/
def steady : Requests
  | _, .declare _ _ _ => False
  | _, .setType _ _ => False
  | _, .setSignature _ _ _ _ => False
  | _, .nameModule _ => False
  | _, _ => True

/-- The requests that declare no name. -/
def unnaming : Requests
  | _, .declare _ _ _ => False
  | _, .nameModule _ => False
  | _, _ => True

section Uses

instance : Uses reading look := .ask trivial

instance : Uses reading take := .ask trivial

instance (text : String) : Uses reading (write text) := .ask trivial

instance (name : String) : Uses reading (find name) := .ask trivial

instance (index : Nat) : Uses reading (symbol index) := .ask trivial

instance (index : Nat) : Uses reading (nameOf index) := .ask trivial

instance (index : Nat) : Uses reading (resolve index) := .ask trivial

instance : Uses reading moduleName := .ask trivial

instance : Uses reading Action.scope := .ask trivial

instance (wanted : Token.Kind) :
    Uses reading (expect wanted) := by
  unfold expect sees kind found
  infer_instance

instance : Uses reading identifier := by unfold identifier sees kind lexeme found; infer_instance

instance (name : String) : Uses reading (requireFresh name) := by
  unfold requireFresh
  refine .bind fun index => ?_
  cases index <;> infer_instance

instance (index : Nat) (name : String) : Uses reading (designate index name) := by
  unfold designate
  refine .bind fun symbol => ?_
  split <;> infer_instance

instance : Uses reading designatorName := by
  unfold designatorName
  refine .bind fun _ => ?_
  dsimp only
  refine @Uses.ite _ _ _ _ _ _ ?_ inferInstance
  refine .bind fun _ => ?_
  split
  · refine .bind fun _ => .bind fun _ => .bind fun _ => ?_
    split
    · refine .bind fun _ => .bind fun _ => .bind fun _ => ?_
      split <;> infer_instance
    · infer_instance
    · infer_instance
  · infer_instance

instance (target : Nat) : Uses reading (memberOf target) := by unfold memberOf; infer_instance

instance : Uses reading basicType := by
  unfold basicType kind found
  refine .bind fun next => ?_
  split
  · split <;> infer_instance
  · refine .bind fun _ => .bind fun index => ?_
    split
    · infer_instance
    · refine .bind fun _ => .bind fun _ => ?_
      split <;> infer_instance
  · infer_instance

instance : Uses reading arraySize := by
  unfold arraySize kind lexeme
  refine .bind fun next => ?_
  split
  · infer_instance
  · refine .bind fun _ => .bind fun index => ?_
    split
    · refine .bind fun _ => .bind fun _ => ?_
      split <;> infer_instance
    · infer_instance
  · infer_instance

theorem uses_of_readingAtoms
    {α : Type} {action : Action α} (h : readingAtoms α action) :
    Uses reading action := by
  cases h with
  | requireFresh name => infer_instance
  | designatorName => infer_instance
  | basicType => infer_instance
  | arraySize => infer_instance
  | rule rule => infer_instance
  | token h => cases h <;> exact .ask trivial
  | _ => exact .ask trivial

instance
    (priority := low)
    {α : Type}
    (action : Action α)
    [h : MadeOf readingAtoms action] :
    Uses reading action :=
  h.uses fun _ _ => uses_of_readingAtoms

instance
    (priority := low)
    {α : Type}
    (action : Action α)
    [h : Uses reading action] :
    Uses steady action := by
  refine ⟨h.asksOnly.mono fun _ request hreading => ?_⟩
  cases request with
  | declare name kind type => exact hreading
  | setType index type => exact hreading
  | setSignature index exported parameters result => exact hreading
  | nameModule name => exact hreading
  | _ => trivial

theorem uses_of_steadyAtoms
    {α : Type} {action : Action α} (h : steadyAtoms α action) :
    Uses steady action := by
  cases h with
  | reading h =>
    have := uses_of_readingAtoms h
    infer_instance
  | publish text => exact .ask trivial
  | addType shape => exact .ask trivial

instance
    (priority := low)
    {α : Type}
    (action : Action α)
    [h : MadeOf steadyAtoms action] :
    Uses steady action :=
  h.uses fun _ _ => uses_of_steadyAtoms

instance
    (priority := low)
    {α : Type}
    (action : Action α)
    [h : Uses steady action] :
    Uses unnaming action := by
  refine ⟨h.asksOnly.mono fun _ request hsteady => ?_⟩
  cases request with
  | declare name kind type => exact hsteady
  | nameModule name => exact hsteady
  | _ => trivial

instance : unnaming.Signing := ⟨fun _ _ _ _ => trivial⟩

instance (index : Nat) (type : DataType) : Uses unnaming (setType index type) := .ask trivial

instance (index : Nat) (exported : Bool) (parameters : List DataType) (result : DataType) :
    Uses unnaming (ask (.setSignature index exported parameters result) done) := .ask trivial

instance (d : Declarator) (v : Named) : Uses unnaming (variableOf d v) := by
  unfold variableOf
  refine .bind fun _ => .bind fun _ => .bind fun _ => ?_
  split <;> infer_instance

instance (d : Declarator) (p : Named) :
    Uses unnaming (parameterOf d p) := by
  unfold parameterOf
  infer_instance

instance {α : Type} (f : α → Action Unit) (items : List α) [∀ a, Uses unnaming (f a)] :
    Uses unnaming (items.forM f) := by
  induction items <;> (unfold List.forM; infer_instance)

instance {α β : Type} (f : α → Action β) (items : List α) [∀ a, Uses unnaming (f a)] :
    Uses unnaming (items.mapM f) := by
  rw [← List.mapM'_eq_mapM]
  induction items <;> (unfold List.mapM'; infer_instance)

end Uses

/-- All requests. -/
def everything : Requests := fun _ _ => True

section Everything

instance : everything.Signing := ⟨fun _ _ _ _ => trivial⟩

instance
    (priority := low)
    {α : Type}
    (action : Action α)
    [h : Uses unnaming action] :
    Uses everything action :=
  ⟨h.asksOnly.mono fun _ _ _ => trivial⟩

instance
    (name : String) (kind : Symbol.Kind) (type : DataType) :
    Uses everything (declare name kind type) :=
  .ask trivial

instance (name : String) : Uses everything (ask (.nameModule name) done) := .ask trivial

instance : Uses everything importEntry := by unfold importEntry; infer_instance

instance : Uses everything importList := by unfold importList; infer_instance

instance : Uses everything constantDeclaration := by unfold constantDeclaration; infer_instance

instance : Uses everything constantDeclarations := by unfold constantDeclarations; infer_instance

instance : Uses everything variableName := by unfold variableName; infer_instance

instance : Uses everything variableDeclaration := by unfold variableDeclaration; infer_instance

instance : Uses everything variableDeclarations := by unfold variableDeclarations; infer_instance

instance : Uses everything parameterName := by unfold parameterName; infer_instance

instance : Uses everything parameterGroup := by unfold parameterGroup; infer_instance

instance : Uses everything parameterList := by unfold parameterList; infer_instance

instance
    (entry : Nat) (name : String) (exported : Bool) :
    Uses everything (procedureHeader entry name exported) := by
  unfold procedureHeader
  infer_instance

instance (name : String) :
    Uses everything (procedureBody name) := by
  unfold procedureBody
  infer_instance

instance : Uses everything procedureDeclaration := by unfold procedureDeclaration; infer_instance

instance : Uses everything declarations := by unfold declarations; infer_instance

instance : Uses everything moduleHead := by unfold moduleHead; infer_instance

instance (header : String) :
    Uses everything (wholeModule header) := by
  unfold wholeModule
  infer_instance

end Everything

/-! ### Steady runs -/

/-- Steady requests keep the symbol table and the scope, since they enter no signatures. -/
theorem invariant_steady (s : State) :
    Invariant (fun t => t.symbols = s.symbols ∧ t.scope = s.scope) steady where
  request request u v b hsteady hu hperform := by
    have hends := request.ends_perform u
    rw [hperform, endState] at hends
    cases hends with
    | declare hadd => exact hsteady.elim
    | setType hset => exact hsteady.elim
    | setSignature hset => exact hsteady.elim
    | _ => exact hu
  openCapture _ h := h
  closeCapture _ h := h
  enter hsigning := (hsigning.setSignature 0 false [] .unknown).elim
  leave hsigning := (hsigning.setSignature 0 false [] .unknown).elim

/-- An action that makes steady requests only keeps the symbol table and the scope. -/
theorem Action.Gives.steady
    {α : Type} {depth : Nat} {action : Action α} {s t : State} {a : α}
    [Uses steady action] (h : action.Gives depth s a t) :
    t.symbols = s.symbols ∧ t.scope = s.scope := by
  have hrules : ∀ {β : Type} (rule : Rule β), Uses Compilation.steady rule.action := by
    intro β rule
    infer_instance
  exact (((invariant_steady s).keeps hrules depth action).gives ⟨rfl, rfl⟩ h).1

end Compilation
end Oberon
