import Oberon.Proofs.Trace

/-!
# Captures are transparent

What an action does depends on the output only through what is written to it.

**Transparency.**  An effect is transparent if the text that it writes, its result and all else it
does to the state are the same whatever output it is performed with.  A capture that is opened
inside is closed again, also on a halt; then the text captured so far is lost.

**Main statement.**  `run_routine_transparent`: the rules of expressions, designators and statements
are transparent.  With a capture open they append to the innermost one, and without one they append
the same text to the implementation.
-/

namespace Oberon

namespace Output

@[simp] theorem captured_openCapture_write (o : Output) (text : String) :
    (o.openCapture.write text).captured = text := by
  simp [openCapture, write, captured]

@[simp] theorem closeCapture_openCapture_write (o : Output) (text : String) :
    (o.openCapture.write text).closeCapture = o := by
  simp [openCapture, write, closeCapture]

end Output

namespace Compilation

open Oberon.Compilation.Action

variable {α β σ : Type}

/-- The result of a run, with another output in its last state. -/
def onto (o : Output) : EStateM.Result Halt State α → EStateM.Result Halt State α
  | .ok a t => .ok a { t with output := o }
  | .error halt t => .error halt { t with output := o }

/--
From each state an effect has one text that it writes, whatever output it is performed with, and
nothing else of what it does depends on the output.
-/
def Transparent (x : Effect α) : Prop :=
  ∀ s, ∃ text, ∀ o, x { s with output := o } = onto (o.write text) (x s)

namespace Transparent

/-- What leaves the output alone writes no text. -/
theorem of_quiet {x : Effect α} (h : ∀ s o, x { s with output := o } = onto o (x s)) :
    Transparent x := by
  intro s
  refine ⟨"", fun o => ?_⟩
  rw [h, Output.write_empty]

theorem bind
    {x : Effect α}
    {f : α → Effect β}
    (hx : Transparent x)
    (hf : ∀ a, Transparent (f a)) :
    Transparent (x >>= f) := by
  intro s
  obtain ⟨text, htext⟩ := hx s
  change ∃ text, ∀ o, EStateM.bind x f { s with output := o } =
    onto (o.write text) (EStateM.bind x f s)
  unfold EStateM.bind
  cases hresult : x s with
  | ok a t =>
    obtain ⟨more, hmore⟩ := hf a t
    refine ⟨text ++ more, fun o => ?_⟩
    rw [htext, hresult, ← Output.write_write]
    exact hmore (o.write text)
  | error halt t =>
    refine ⟨text, fun o => ?_⟩
    rw [htext, hresult]
    rfl

/-- A capture keeps its text from the output around it. -/
theorem captured {x : Effect α} (hx : Transparent x) : Transparent (Action.captured x) := by
  refine of_quiet fun s o => ?_
  obtain ⟨text, htext⟩ := hx s
  unfold Action.captured
  dsimp only
  rw [htext o.openCapture, htext s.output.openCapture]
  cases x s <;> simp [onto]

theorem iterate
    {turn : σ → Effect (σ ⊕ β)}
    (hturn : ∀ x, Transparent (turn x))
    (count : Nat)
    (x : σ) :
    Transparent (Action.iterate turn count x) := by
  induction count generalizing x with
  | zero => exact of_quiet fun _ _ => rfl
  | succ count ih =>
    refine (hturn x).bind fun next => ?_
    cases next with
    | inl y => exact ih y
    | inr b => exact of_quiet fun _ _ => rfl

/-- How many turns are allowed does not depend on the output. -/
theorem repeated {turn : σ → Effect (σ ⊕ β)} (hturn : ∀ x, Transparent (turn x)) (start : σ) :
    Transparent (Action.repeated turn start) := by
  intro s
  exact iterate hturn (s.remaining + 1) start s

theorem takeToken : Transparent Request.takeToken := by
  refine of_quiet fun s o => ?_
  unfold Request.takeToken
  dsimp only
  cases s.cursor.next s.symbols with
  | ok token cursor => rfl
  | error halt cursor => cases halt <;> rfl

theorem ofTable
    {answer : State → Except Fault α}
    (h : ∀ s o, answer { s with output := o } = answer s) :
    Transparent (do Request.ofTable (answer (← get))) := by
  refine of_quiet fun s o => ?_
  change Request.ofTable (answer { s with output := o }) { s with output := o } =
    onto o (Request.ofTable (answer s) s)
  rw [h]
  cases answer s <;> rfl

theorem ofTypes
    {answer : State → Except TypeError α}
    (h : ∀ s o, answer { s with output := o } = answer s) :
    Transparent (do Request.ofTypes (answer (← get))) := by
  refine of_quiet fun s o => ?_
  change Request.ofTypes (answer { s with output := o }) { s with output := o } =
    onto o (Request.ofTypes (answer s) s)
  rw [h]
  cases answer s <;> rfl

theorem perform {request : Request α} (h : reading α request) : Transparent request.perform := by
  cases request with
  | look => exact of_quiet fun _ _ => rfl
  | take => exact takeToken
  | write text => exact fun _ => ⟨text, fun _ => rfl⟩
  | find name => exact ofTable fun _ _ => rfl
  | symbol index => exact ofTable fun _ _ => rfl
  | nameOf index => exact ofTable fun _ _ => rfl
  | resolve index => exact ofTable fun _ _ => rfl
  | requireCompatible a b => exact ofTypes fun _ _ => rfl
  | element type => exact ofTypes fun _ _ => rfl
  | form type => exact of_quiet fun _ _ => rfl
  | moduleName => exact of_quiet fun _ _ => rfl
  | scope => exact of_quiet fun _ _ => rfl
  | publish text => exact h.elim
  | declare name kind type => exact h.elim
  | setType index type => exact h.elim
  | setSignature index exported parameters result => exact h.elim
  | addType shape => exact h.elim
  | nameModule name => exact h.elim

/-- An action that only reads is transparent if the rules are. -/
theorem run
    {rules : {β : Type} → Rule β → Effect β}
    (hrules : ∀ {β : Type} (rule : Rule β), Transparent (rules rule))
    (action : Action α) :
    action.AsksOnly reading → Transparent (action.run rules) := by
  induction action with
  | done a => exact fun _ => of_quiet fun _ _ => rfl
  | reject diagnostic => exact fun _ => of_quiet fun _ _ => rfl
  | ask request next ih => exact fun h => (perform h.1).bind fun answer => ih answer (h.2 answer)
  | capture body next hbody ih =>
    exact fun h => (hbody h.1).captured.bind fun result => ih result (h.2 result)
  | inProcedure body next hbody ih => exact fun h => (h.1.setSignature 0 false [] .unknown).elim
  | loop turn start next hturn ih =>
    exact fun h => (repeated (fun x => hturn x (h.1 x)) start).bind fun result =>
      ih result (h.2 result)
  | call rule next ih => exact fun h => (hrules rule).bind fun result => ih result (h result)

theorem rule (depth : Nat) : ∀ {β : Type} (rule : Rule β), Transparent (Rule.run depth rule) := by
  induction depth with
  | zero => exact fun _ => of_quiet fun _ _ => rfl
  | succ depth ih =>
    intro β rule
    have huses : Uses reading rule.action := inferInstance
    exact run ih rule.action huses.asksOnly

end Transparent

/-! ### The rules of expressions, designators and statements -/

/-- The actions for expressions, designators and statements, and for their parts. -/
inductive Routine : Type → Type
  | factor : Routine DataType
  | term : Routine DataType
  | simpleExpression : Routine DataType
  | expression : Routine DataType
  | operator (level : Operator.Level) : Routine Bool
  | literal (type : DataType) : Routine DataType
  | framed (frame : Frame) : Routine DataType
  | absolute : Routine DataType
  | shift : Routine DataType
  | reference : Routine DataType
  | designate (index : Nat) (name : String) : Routine Designator
  | designatorName : Routine (String × Designator)
  | indexed (d : Designator) : Routine (Designator ⊕ Designator)
  | designator : Routine Designator
  | arguments (callee : Designator) : Routine Unit
  | matchArguments (callee : Designator) (types : List DataType) : Routine Unit
  | statement : Routine Unit
  | statements : Routine Unit
  | condition : Routine Unit
  | designatorStatement : Routine Unit
  | assignment (d : Designator) (target : String) : Routine Unit
  | ifStatement : Routine Unit
  | guarded (word : Keyword) : Routine Unit
  | whileStatement : Routine Unit
  | repeatStatement : Routine Unit
  | returnStatement : Routine Unit
  | countStatement (byOne byStep : String) : Routine Unit
  | assertStatement : Routine Unit
  | wordStatement (text : String) : Routine Unit

/-- What a routine does. -/
def Routine.action : {α : Type} → Routine α → Action α
  | _, factor => Compilation.factor
  | _, term => Compilation.term
  | _, simpleExpression => Compilation.simpleExpression
  | _, expression => Compilation.expression
  | _, operator level => Compilation.operator level
  | _, literal type => Compilation.literal type
  | _, framed frame => Compilation.framed frame
  | _, absolute => Compilation.absolute
  | _, shift => Compilation.shift
  | _, reference => Compilation.reference
  | _, designate index name => Compilation.designate index name
  | _, designatorName => Compilation.designatorName
  | _, indexed d => Compilation.indexed d
  | _, designator => Compilation.designator
  | _, arguments callee => Compilation.arguments callee
  | _, matchArguments callee types => Compilation.matchArguments callee types
  | _, statement => Compilation.statement
  | _, statements => Compilation.statements
  | _, condition => Compilation.condition
  | _, designatorStatement => Compilation.designatorStatement
  | _, assignment d target => Compilation.assignment d target
  | _, ifStatement => Compilation.ifStatement
  | _, guarded word => Compilation.guarded word
  | _, whileStatement => Compilation.whileStatement
  | _, repeatStatement => Compilation.repeatStatement
  | _, returnStatement => Compilation.returnStatement
  | _, countStatement byOne byStep => Compilation.countStatement byOne byStep
  | _, assertStatement => Compilation.assertStatement
  | _, wordStatement text => Compilation.wordStatement text

instance (routine : Routine α) : Uses reading routine.action := by
  cases routine <;> (unfold Routine.action; infer_instance)

/--
From each state a routine has one result and one text: with a capture open it appends the text to
the innermost one, and without one it appends the same text to the implementation.  All else is the
same in both runs, on a halt too: the captures around, the interface, and the state apart from the
output.
-/
theorem run_routine_transparent (routine : Routine α) (depth : Nat) (s : State) :
    ∃ (result : EStateM.Result Halt State α) (text : String),
      (∀ units innermost outer,
        routine.action.run (Rule.run depth) { s with output := ⟨units, innermost :: outer⟩ } =
          onto ⟨units, (innermost ++ text) :: outer⟩ result) ∧
      ∀ units,
        routine.action.run (Rule.run depth) { s with output := ⟨units, []⟩ } =
          onto ⟨⟨units.implementation ++ text, units.interface⟩, []⟩ result := by
  have huses : Uses reading routine.action := inferInstance
  obtain ⟨text, htext⟩ := Transparent.run (Transparent.rule depth) routine.action huses.asksOnly s
  exact ⟨_, text, fun units innermost outer => htext ⟨units, innermost :: outer⟩,
    fun units => htext ⟨units, []⟩⟩

end Compilation
end Oberon
