import Oberon.Compilation.Module
import Mathlib.Tactic

/-!
# Successful runs

`Action.Gives` says that an action succeeds: with its result and the state in which it ends.  The
inversion lemmas below say, for every form of action and every primitive one, what its success
amounts to, so that later proofs take an action apart without opening `Action.run`.

**Results.**
* `gives_bind`: an action behind another one starts where that one ended.
* `gives_turns_iff`: a loop whose turns all take a token is never cut short, so its success is the
  success of finitely many turns.
-/

namespace Oberon
namespace Compilation

variable {α β σ : Type}

/-- The state with more text in the implementation or the innermost capture. -/
def State.write (s : State) (text : String) : State :=
  { s with output := s.output.write text }

/-- The state with more text in the interface. -/
def State.publish (s : State) (text : String) : State :=
  { s with output := s.output.publish text }

/-- A successful bind passes through the end of its first half. -/
theorem Effect.bind_eq_ok_iff
    (x : Effect α) (f : α → Effect β)
    (s t : State) (b : β) :
    (x >>= f) s = .ok b t ↔
      ∃ a u, x s = .ok a u ∧ f a u = .ok b t := by
  change EStateM.bind x f s = .ok b t ↔ _
  unfold EStateM.bind
  cases x s with
  | ok a u => simp
  | error halt u => simp

namespace Action

/--
With at most `depth` rules inside each other, `action` performed in `s` succeeds with `a` and ends
in `t`.
-/
def Gives
    (depth : Nat) (action : Action α)
    (s : State) (a : α) (t : State) : Prop :=
  action.run (Rule.run depth) s = .ok a t

/-- The result of an action that succeeds, and the state that it ends in. -/
def outcome? (depth : Nat) (action : Action α) (s : State) : Option (α × State) :=
  match action.run (Rule.run depth) s with
  | .ok a t => some (a, t)
  | .error _ _ => none

theorem outcome?_eq_some_iff {depth : Nat} {action : Action α} {s : State} {reached : α × State} :
    action.outcome? depth s = some reached ↔ action.Gives depth s reached.1 reached.2 := by
  unfold outcome? Gives
  cases action.run (Rule.run depth) s with
  | ok a t => simp [Prod.ext_iff]
  | error halt t => simp

/-- A property of what an action gives can be checked. -/
theorem exists_gives_of_any
    {depth : Nat}
    {action : Action α}
    {s : State}
    {p : α × State → Bool}
    (h : (action.outcome? depth s).any p = true) :
    ∃ a t, action.Gives depth s a t ∧ p (a, t) = true := by
  obtain ⟨reached, hreached, hp⟩ := (Option.any_eq_true _ _).1 h
  exact ⟨reached.1, reached.2, outcome?_eq_some_iff.1 hreached, hp⟩

section Forms

variable {depth : Nat} {s t : State}

@[simp] theorem gives_pure (a b : α) :
    Gives depth (pure a) s b t ↔ b = a ∧ t = s := by
  change EStateM.Result.ok a s = .ok b t ↔ _
  simp [eq_comm]

@[simp] theorem gives_bind
    (x : Action α) (f : α → Action β) (b : β) :
    Gives depth (x >>= f) s b t ↔
      ∃ a u, Gives depth x s a u ∧ Gives depth (f a) u b t := by
  unfold Gives
  rw [run_bind]
  exact Effect.bind_eq_ok_iff ..

@[simp] theorem gives_map
    (f : α → β) (x : Action α) (b : β) :
    Gives depth (f <$> x) s b t ↔
      ∃ a, Gives depth x s a t ∧ b = f a := by
  rw [← bind_pure_comp, gives_bind]
  constructor
  · rintro ⟨a, u, hx, hpure⟩
    rw [gives_pure] at hpure
    obtain ⟨rfl, rfl⟩ := hpure
    exact ⟨a, hx, rfl⟩
  · rintro ⟨a, hx, rfl⟩
    exact ⟨a, t, hx, by simp⟩

@[simp] theorem gives_discard (x : Action α) (a : Unit) :
    Gives depth (discard x) s a t ↔ ∃ b, Gives depth x s b t := by
  change Gives depth ((fun _ => ()) <$> x) s a t ↔ _
  simp

@[simp] theorem gives_reject (diagnostic : Diagnostic) (a : α) :
    ¬ Gives depth (reject diagnostic) s a t := by
  intro h
  cases h

@[simp] theorem gives_ite
    (p : Prop) [Decidable p] (x y : Action α) (a : α) :
    Gives depth (if p then x else y) s a t ↔
      (p ∧ Gives depth x s a t) ∨ (¬ p ∧ Gives depth y s a t) := by
  by_cases hp : p
  · simp [hp]
  · simp [hp]

theorem gives_ask (request : Request α) (a : α) :
    Gives depth (ask request done) s a t ↔ request.perform s = .ok a t := by
  unfold Gives
  simp only [run]
  rw [Effect.bind_eq_ok_iff]
  constructor
  · rintro ⟨b, u, hperform, hdone⟩
    cases hdone
    exact hperform
  · intro hperform
    exact ⟨a, t, hperform, rfl⟩

/-- A rule succeeds as its action does, with one rule less inside it. -/
theorem gives_call (rule : Rule α) (a : α) :
    Gives (depth + 1) (call rule done) s a t ↔
      Gives depth rule.action s a t := by
  unfold Gives
  simp only [run]
  rw [Effect.bind_eq_ok_iff]
  constructor
  · rintro ⟨b, u, hrule, hdone⟩
    cases hdone
    exact hrule
  · intro hrule
    exact ⟨a, t, hrule, rfl⟩

theorem not_gives_call_zero (rule : Rule α) (a : α) :
    ¬ Gives 0 (call rule done) s a t := by
  intro h
  cases h

theorem gives_textOf (body : Action α) (result : α × String) :
    Gives depth (textOf body) s result t ↔
      ∃ u, Gives depth body { s with output := s.output.openCapture } result.1 u ∧
        result.2 = u.output.captured ∧
        t = { u with output := u.output.closeCapture } := by
  unfold Gives textOf
  simp only [run]
  rw [Effect.bind_eq_ok_iff]
  unfold captured
  constructor
  · rintro ⟨answer, u, hbody, hdone⟩
    cases hdone
    split at hbody
    · rename_i a v hv
      cases hbody
      exact ⟨v, hv, rfl, rfl⟩
    · cases hbody
  · rintro ⟨u, hbody, htext, rfl⟩
    refine ⟨result, _, ?_, rfl⟩
    rw [hbody]
    simp [← htext]

/-- An action in a procedure scope of its own, and the scope left behind it. -/
theorem gives_inProcedure (body : Action α) (a : α) :
    Gives depth (inProcedure body done) s a t ↔
      ∃ u symbols,
        Gives depth body s.entered a u ∧
        u.symbols.release s.symbols.mark = .ok () symbols ∧
        t = { u with symbols, scope := .ofModule s.scope.floor } := by
  unfold Gives
  simp only [run]
  rw [Effect.bind_eq_ok_iff]
  unfold enclosed leave
  constructor
  · rintro ⟨b, v, hbody, hdone⟩
    cases hdone
    split at hbody
    · rename_i c u hu
      cases hrelease : u.symbols.release s.symbols.mark with
      | ok x symbols =>
        simp only [hrelease] at hbody
        cases hbody
        exact ⟨u, symbols, hu, hrelease, rfl⟩
      | error fault symbols =>
        simp [hrelease] at hbody
    · rename_i halt u hu
      cases hrelease : u.symbols.release s.symbols.mark with
      | ok x symbols => simp [hrelease] at hbody
      | error fault symbols => simp [hrelease] at hbody
  · rintro ⟨u, symbols, hbody, hrelease, rfl⟩
    refine ⟨a, _, ?_, rfl⟩
    rw [hbody]
    simp [hrelease]

end Forms

/-! ### Tokens -/

section Tokens

variable {depth : Nat} {s t : State}

@[simp] theorem gives_look (a : Token.Kind × String) :
    Gives depth look s a t ↔
      a = (s.token.kind, s.token.lexeme) ∧ t = s := by
  change EStateM.Result.ok (s.token.kind, s.token.lexeme) s = .ok a t ↔ _
  simp [eq_comm]

@[simp] theorem gives_kind (kind : Token.Kind) :
    Gives depth Action.kind s kind t ↔ kind = s.token.kind ∧ t = s := by
  unfold Action.kind
  simp [and_comm]

/-- What is done depends on the kind of the current token alone. -/
theorem gives_kind_bind (f : Token.Kind → Action α) (a : α) :
    Gives depth (Action.kind >>= f) s a t ↔ Gives depth (f s.token.kind) s a t := by
  simp

@[simp] theorem gives_sees (wanted : Token.Kind) (seen : Bool) :
    Gives depth (sees wanted) s seen t ↔
      seen = decide (s.token.kind = wanted) ∧ t = s := by
  unfold sees
  simp [and_comm]

@[simp] theorem gives_take (a : Unit) :
    Gives depth take s a t ↔ Request.takeToken s = .ok () t :=
  gives_ask Request.take a

@[simp] theorem gives_lexeme (lexeme : String) :
    Gives depth Action.lexeme s lexeme t ↔
      lexeme = s.token.lexeme ∧ Request.takeToken s = .ok () t := by
  unfold Action.lexeme
  simp [and_comm]

@[simp] theorem gives_accept (wanted : Token.Kind) (seen : Bool) :
    Gives depth (accept wanted) s seen t ↔
      (s.token.kind = wanted ∧ Request.takeToken s = .ok () t ∧ seen = true) ∨
      (s.token.kind ≠ wanted ∧ t = s ∧ seen = false) := by
  unfold accept
  by_cases h : s.token.kind = wanted
  · simp [h]
  · simp [h, and_comm]

@[simp] theorem gives_expect (wanted : Token.Kind) (a : Unit) :
    Gives depth (expect wanted) s a t ↔
      s.token.kind = wanted ∧ Request.takeToken s = .ok () t := by
  unfold expect
  simp

@[simp] theorem gives_identifier (name : String) :
    Gives depth identifier s name t ↔
      s.token.kind = .identifier ∧ name = s.token.lexeme ∧
        Request.takeToken s = .ok () t := by
  unfold identifier
  simp

end Tokens

/-! ### Text, symbols and types -/

section Requests

variable {depth : Nat} {s t : State}

@[simp] theorem gives_write (text : String) (a : Unit) :
    Gives depth (write text) s a t ↔ t = s.write text := by
  change EStateM.Result.ok () (s.write text) = .ok a t ↔ _
  simp [eq_comm]

@[simp] theorem gives_publish (text : String) (a : Unit) :
    Gives depth (publish text) s a t ↔ t = s.publish text := by
  change EStateM.Result.ok () (s.publish text) = .ok a t ↔ _
  simp [eq_comm]

theorem ofTable_eq_ok_iff (answer : Except Fault α) (a : α) :
    Request.ofTable answer s = .ok a t ↔ answer = .ok a ∧ t = s := by
  cases answer with
  | ok b =>
    change EStateM.Result.ok b s = .ok a t ↔ _
    simp [eq_comm]
  | error fault =>
    change EStateM.Result.error (Halt.fault fault) s = .ok a t ↔ _
    simp

theorem ofTypes_eq_ok_iff (answer : Except TypeError α) (a : α) :
    Request.ofTypes answer s = .ok a t ↔ answer = .ok a ∧ t = s := by
  cases answer with
  | ok b =>
    change EStateM.Result.ok b s = .ok a t ↔ _
    simp [eq_comm]
  | error error =>
    change EStateM.Result.error (Halt.rejected (.type error)) s = .ok a t ↔ _
    simp

@[simp] theorem gives_find (name : String) (found : Option Nat) :
    Gives depth (find name) s found t ↔
      s.symbols.find name = .ok found ∧ t = s := by
  rw [find, gives_ask]
  exact ofTable_eq_ok_iff ..

@[simp] theorem gives_symbol (index : Nat) (a : Symbol) :
    Gives depth (symbol index) s a t ↔
      s.symbols.get index = .ok a ∧ t = s := by
  rw [symbol, gives_ask]
  exact ofTable_eq_ok_iff ..

@[simp] theorem gives_nameOf (index : Nat) (name : String) :
    Gives depth (nameOf index) s name t ↔
      s.symbols.name index = .ok name ∧ t = s := by
  rw [nameOf, gives_ask]
  exact ofTable_eq_ok_iff ..

@[simp] theorem gives_resolve (index target : Nat) :
    Gives depth (resolve index) s target t ↔
      s.symbols.resolve index = .ok target ∧ t = s := by
  rw [resolve, gives_ask]
  exact ofTable_eq_ok_iff ..

@[simp] theorem gives_declare
    (name : String) (kind : Symbol.Kind) (type : DataType) (index : Nat) :
    Gives depth (declare name kind type) s index t ↔
      ∃ symbols, s.symbols.add name kind type = .ok (index, symbols) ∧
        t = { s with symbols } := by
  rw [declare, gives_ask]
  change Request.declareSymbol name kind type s = .ok index t ↔ _
  unfold Request.declareSymbol
  cases s.symbols.add name kind type with
  | ok added =>
    obtain ⟨i, symbols⟩ := added
    simp only [EStateM.Result.ok.injEq, Except.ok.injEq, Prod.mk.injEq]
    constructor
    · rintro ⟨rfl, rfl⟩
      exact ⟨symbols, ⟨rfl, rfl⟩, rfl⟩
    · rintro ⟨_, ⟨rfl, rfl⟩, rfl⟩
      exact ⟨rfl, rfl⟩
  | error e => simp

theorem changeSymbols_eq_ok_iff
    (change : SymbolTable → Except Fault SymbolTable) (a : Unit) :
    Request.changeSymbols change s = .ok a t ↔
      ∃ symbols, change s.symbols = .ok symbols ∧ t = { s with symbols } := by
  unfold Request.changeSymbols
  cases change s.symbols with
  | ok symbols => simp [eq_comm]
  | error fault => simp

@[simp] theorem gives_setType (index : Nat) (type : DataType) (a : Unit) :
    Gives depth (setType index type) s a t ↔
      ∃ symbols, s.symbols.setType index type = .ok symbols ∧
        t = { s with symbols } := by
  rw [setType, gives_ask]
  exact changeSymbols_eq_ok_iff (fun t => t.setType index type) a

theorem gives_setSignature
    (index : Nat) (exported : Bool) (parameters : List DataType)
    (result : DataType) (a : Unit) :
    Gives depth (ask (.setSignature index exported parameters result) done) s a t ↔
      ∃ symbols,
        s.symbols.update index (fun symbol =>
          { symbol with kind := .procedure exported parameters, type := result }) = .ok symbols ∧
        t = { s with symbols, scope := { s.scope with result } } := by
  rw [gives_ask]
  simp only [Request.perform]
  rw [Effect.bind_eq_ok_iff]
  constructor
  · rintro ⟨b, u, hchange, hmodify⟩
    rw [changeSymbols_eq_ok_iff] at hchange
    obtain ⟨symbols, hupdate, rfl⟩ := hchange
    cases hmodify
    exact ⟨symbols, hupdate, rfl⟩
  · rintro ⟨symbols, hupdate, rfl⟩
    refine ⟨(), { s with symbols }, ?_, rfl⟩
    rw [changeSymbols_eq_ok_iff]
    exact ⟨symbols, hupdate, rfl⟩

@[simp] theorem gives_requireCompatible (a b : DataType) (x : Unit) :
    Gives depth (requireCompatible a b) s x t ↔
      s.types.compatible a b = true ∧ t = s := by
  rw [requireCompatible, gives_ask]
  refine (ofTypes_eq_ok_iff ..).trans ?_
  unfold TypeCatalog.requireCompatible
  by_cases h : s.types.compatible a b = true
  · simp [h]
  · simp [h]

@[simp] theorem gives_form (type : DataType) (form : Form) :
    Gives depth (Action.form type) s form t ↔
      form = s.types.form type ∧ t = s := by
  change EStateM.Result.ok (s.types.form type) s = .ok form t ↔ _
  simp [eq_comm]

@[simp] theorem gives_element (type element : DataType) :
    Gives depth (Action.element type) s element t ↔
      s.types.element type = .ok element ∧ t = s := by
  rw [Action.element, gives_ask]
  exact ofTypes_eq_ok_iff ..

@[simp] theorem gives_addType (shape : Shape) (type : DataType) :
    Gives depth (addType shape) s type t ↔
      type = (s.types.add shape).1 ∧
        t = { s with types := (s.types.add shape).2 } := by
  change EStateM.Result.ok (s.types.add shape).1
    { s with types := (s.types.add shape).2 } = .ok type t ↔ _
  simp [eq_comm]

@[simp] theorem gives_moduleName (name : String) :
    Gives depth moduleName s name t ↔ name = s.moduleName ∧ t = s := by
  change EStateM.Result.ok s.moduleName s = .ok name t ↔ _
  simp [eq_comm]

theorem gives_nameModule (name : String) (a : Unit) :
    Gives depth (ask (.nameModule name) done) s a t ↔
      t = { s with moduleName := name } := by
  change EStateM.Result.ok () { s with moduleName := name } = .ok a t ↔ _
  simp [eq_comm]

@[simp] theorem gives_scope (scope : Scope) :
    Gives depth Action.scope s scope t ↔ scope = s.scope ∧ t = s := by
  change EStateM.Result.ok s.scope s = .ok scope t ↔ _
  simp [eq_comm]

end Requests

end Action
end Compilation
end Oberon
