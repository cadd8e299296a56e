import Oberon.Proofs.Termination

/-!
# Two runs side by side

One action performed in two states, where both runs have turns and depth of their own.

**Lockstep.**  `Lockstep R excused` says of a relation between states that every request, and all
else that an action is put together from, keeps it: both runs get the same answers and halt for the
same reason.  Only the first run may halt alone, with a diagnostic that is `excused`.

**Part of the way.**  `LockstepWithin` asks the same of requests only as long as the first run stays
at cursors of some kind, which it cannot come back to once it has left them.  `AlikeWithin` says so
of two effects, and is kept when effects are put together.

**Main statements.**  `LockstepWithin.compiled` and `Lockstep.compiled`: of a relation that is kept
in lockstep, two compilations from related states end alike.  A run that faults or runs out of turns
says nothing about the other one, but no compilation does either.
-/

namespace Oberon
namespace Compilation

variable {α β σ : Type}

/--
A halt that says nothing about another run: one that no compilation comes to, or one with an excused
diagnostic.
-/
def Halt.ExcusedBy (excused : Diagnostic → Prop) : Halt → Prop
  | .rejected diagnostic => excused diagnostic
  | .fault _ => True
  | .exhausted => True

/-- Two runs end alike, in related states, unless one of them has halted with an excuse. -/
inductive Alike (R : State → State → Prop) (excused : Diagnostic → Prop) :
    EStateM.Result Halt State α → EStateM.Result Halt State α → Prop
  | ok {a : α} {s t : State} (h : R s t) : Alike R excused (.ok a s) (.ok a t)
  | error {halt : Halt} {s t : State} (h : R s t) : Alike R excused (.error halt s) (.error halt t)
  | first
      {halt : Halt}
      {s : State}
      {other : EStateM.Result Halt State α}
      (h : halt.ExcusedBy excused) :
      Alike R excused (.error halt s) other
  | second {halt : Halt} {t : State} {other : EStateM.Result Halt State α} (h :
      halt.ExcusedBy fun _ => False) :
      Alike R excused other (.error halt t)

/--
A relation between the states of two runs that everything an action is put together from keeps.
-/
structure Lockstep (R : State → State → Prop) (excused : Diagnostic → Prop) : Prop where
  request : ∀ {β : Type} (request : Request β) {s t : State}, R s t →
    Alike R excused (request.perform s) (request.perform t)
  opened : ∀ {s t : State}, R s t →
    R { s with output := s.output.openCapture } { t with output := t.output.openCapture }
  captured : ∀ {s t : State}, R s t → s.output.captured = t.output.captured
  closed : ∀ {s t : State}, R s t →
    R { s with output := s.output.closeCapture } { t with output := t.output.closeCapture }
  scope : ∀ {s t : State}, R s t → s.scope = t.scope ∧ s.symbols.mark = t.symbols.mark
  entered : ∀ {s t : State} (scope : Scope), R s t → R { s with scope } { t with scope }
  left : ∀ {s t : State} (mark : SymbolTable.Mark) (floor : Nat), R s t →
    Alike R excused (Action.leave mark floor s) (Action.leave mark floor t)

variable {R : State → State → Prop} {excused : Diagnostic → Prop}

theorem Alike.bind
    {x y : Effect α}
    {f g : α → Effect β}
    {s t : State}
    (h : Alike R excused (x s) (y t))
    (hnext : ∀ a u v, R u v → Alike R excused (f a u) (g a v)) :
    Alike R excused ((x >>= f) s) ((y >>= g) t) := by
  change Alike R excused (EStateM.bind x f s) (EStateM.bind y g t)
  unfold EStateM.bind
  generalize x s = x at h
  generalize y t = y at h
  cases h with
  | ok h => exact hnext _ _ _ h
  | error h => exact .error h
  | first h => exact .first h
  | second h => exact .second h

/-- Runs that halt for diagnostics only end alike, or the first one has an excuse. -/
theorem Alike.cases_of_rejected
    {x y : EStateM.Result Halt State α}
    (h : Alike R excused x y)
    (hx : ∀ halt s, x = .error halt s → ∃ diagnostic, halt = .rejected diagnostic)
    (hy : ∀ halt t, y = .error halt t → ∃ diagnostic, halt = .rejected diagnostic) :
    (∃ a s t, x = .ok a s ∧ y = .ok a t ∧ R s t) ∨
    (∃ diagnostic s t,
      x = .error (.rejected diagnostic) s ∧ y = .error (.rejected diagnostic) t ∧ R s t) ∨
    ∃ diagnostic s, x = .error (.rejected diagnostic) s ∧ excused diagnostic := by
  cases h with
  | @ok a s t h => exact Or.inl ⟨a, s, t, rfl, rfl, h⟩
  | @error halt s t h =>
    obtain ⟨diagnostic, rfl⟩ := hx halt s rfl
    exact Or.inr (Or.inl ⟨diagnostic, s, t, rfl, rfl, h⟩)
  | @first halt s _ h =>
    obtain ⟨diagnostic, rfl⟩ := hx halt s rfl
    exact Or.inr (Or.inr ⟨diagnostic, s, rfl, h⟩)
  | @second halt t _ h =>
    obtain ⟨diagnostic, rfl⟩ := hy halt t rfl
    exact h.elim

theorem Alike.ofTable {s t : State} (h : R s t) (answer : Except Fault α) :
    Alike R excused (Request.ofTable answer s) (Request.ofTable answer t) := by
  cases answer with
  | ok a => exact .ok h
  | error fault => exact .error h

theorem Alike.ofTypes {s t : State} (h : R s t) (answer : Except TypeError α) :
    Alike R excused (Request.ofTypes answer s) (Request.ofTypes answer t) := by
  cases answer with
  | ok a => exact .ok h
  | error error => exact .error h

/-- Leaving a procedure scope halts with a fault only. -/
theorem exists_fault_of_leave
    {mark : SymbolTable.Mark}
    {floor : Nat}
    {s t : State}
    {halt : Halt}
    (h : Action.leave mark floor s = .error halt t) :
    ∃ fault, halt = .fault fault := by
  unfold Action.leave at h
  split at h
  · cases h
  · cases h
    exact ⟨_, rfl⟩

/-- A frame around an effect does not move the cursor. -/
@[simp] theorem cursor_leave (mark : SymbolTable.Mark) (floor : Nat) (s : State) :
    (endState (Action.leave mark floor s)).cursor = s.cursor := by
  unfold Action.leave
  split <;> rfl

@[simp] theorem cursor_captured (x : Effect α) (s : State) :
    (endState (Action.captured x s)).cursor =
      (endState (x { s with output := s.output.openCapture })).cursor := by
  unfold Action.captured
  cases x { s with output := s.output.openCapture } with
  | ok a t => rfl
  | error halt t => rfl

@[simp] theorem cursor_enclosed (x : Effect α) (s : State) :
    (endState (Action.enclosed x s)).cursor =
      (endState (x s.entered)).cursor := by
  rw [endState_enclosed, cursor_leave]

/-! ### Effects side by side -/

/--
Two effects end alike in related states if the first one ends at a cursor of a kind; it comes there
from such cursors only.
-/
structure AlikeWithin
    (within : Cursor → Prop)
    (R : State → State → Prop)
    (excused : Diagnostic → Prop)
    (x y : Effect α) :
    Prop where
  back : ∀ s, within (endState (x s)).cursor → within s.cursor
  alike : ∀ {s t}, R s t → within (endState (x s)).cursor → Alike R excused (x s) (y t)

/--
A relation between the states of two runs that is kept as long as the first run stays at cursors of
a kind.
-/
structure LockstepWithin
    (within : Cursor → Prop) (R : State → State → Prop) (excused : Diagnostic → Prop) :
    Prop where
  request : ∀ {β : Type} (request : Request β),
    AlikeWithin within R excused request.perform request.perform
  opened : ∀ {s t : State}, R s t →
    R { s with output := s.output.openCapture } { t with output := t.output.openCapture }
  captured : ∀ {s t : State}, R s t → s.output.captured = t.output.captured
  closed : ∀ {s t : State}, R s t →
    R { s with output := s.output.closeCapture } { t with output := t.output.closeCapture }
  scope : ∀ {s t : State}, R s t → s.scope = t.scope ∧ s.symbols.mark = t.symbols.mark
  entered : ∀ {s t : State} (scope : Scope), R s t → R { s with scope } { t with scope }
  left : ∀ {s t : State} (mark : SymbolTable.Mark) (floor : Nat), R s t →
    Alike R excused (Action.leave mark floor s) (Action.leave mark floor t)

variable {within : Cursor → Prop}

namespace AlikeWithin

theorem done (a : α) : AlikeWithin within R excused (pure a) (pure a) where
  back _ h := h
  alike h _ := .ok h

theorem halt (halt : Halt) : AlikeWithin within R excused (throw halt : Effect α) (throw halt) where
  back _ h := h
  alike h _ := .error h

theorem bind
    {x y : Effect α}
    {f g : α → Effect β}
    (hx : AlikeWithin within R excused x y)
    (hf : ∀ a, AlikeWithin within R excused (f a) (g a)) :
    AlikeWithin within R excused (x >>= f) (y >>= g) where
  back s := related_bind (R := fun s t => within t.cursor → within s.cursor)
    (fun hst htu hu => hst (htu hu)) (hx.back s)
    fun a u _ => (hf a).back u
  alike {s t} h hwithin := by
    change within (endState (EStateM.bind x f s)).cursor at hwithin
    change Alike R excused (EStateM.bind x f s) (EStateM.bind y g t)
    unfold EStateM.bind at hwithin ⊢
    have hfirst := hx.alike h
    cases hresult : x s with
    | ok a u =>
      rw [hresult] at hfirst hwithin
      have halike := hfirst ((hf a).back u hwithin)
      generalize y t = second at halike
      cases halike with
      | ok h => exact (hf a).alike h hwithin
      | second h => exact .second h
    | error halt u =>
      rw [hresult] at hfirst hwithin
      have halike := hfirst hwithin
      generalize y t = second at halike
      cases halike with
      | error h => exact .error h
      | first h => exact .first h
      | second h => exact .second h

end AlikeWithin

namespace LockstepWithin

variable (hkept : LockstepWithin within R excused)

include hkept

theorem capturing {x y : Effect α} (hxy : AlikeWithin within R excused x y) :
    AlikeWithin within R excused (Action.captured x) (Action.captured y) where
  back s h := hxy.back { s with output := s.output.openCapture } (by simpa using h)
  alike {s t} h hwithin := by
    have hbody := hxy.alike (hkept.opened h) (by simpa using hwithin)
    unfold Action.captured
    generalize x { s with output := s.output.openCapture } = x at hbody
    generalize y { t with output := t.output.openCapture } = y at hbody
    cases hbody with
    | ok h =>
      dsimp only
      rw [hkept.captured h]
      exact .ok (hkept.closed h)
    | error h => exact .error (hkept.closed h)
    | first h => exact .first h
    | second h => exact .second h

/-- A run that has halted with an excuse still has one when its procedure scope is left. -/
theorem enclosing {x y : Effect α} (hxy : AlikeWithin within R excused x y) :
    AlikeWithin within R excused (Action.enclosed x) (Action.enclosed y) where
  back s h := hxy.back s.entered (by simpa using h)
  alike {s t} h hwithin := by
    obtain ⟨hscope, hmark⟩ := hkept.scope h
    have hentered : R s.entered t.entered := by
      unfold State.entered
      rw [← hscope, ← hmark]
      exact hkept.entered _ h
    have hbody := hxy.alike hentered (by simpa using hwithin)
    unfold Action.enclosed
    rw [← hscope, ← hmark]
    generalize x s.entered = x at hbody
    generalize y t.entered = y at hbody
    generalize s.symbols.mark = mark
    cases hbody with
    | @ok a u v h =>
      have hleft := hkept.left mark s.scope.floor h
      dsimp only
      generalize Action.leave mark s.scope.floor u = x at hleft
      generalize Action.leave mark s.scope.floor v = y at hleft
      cases hleft with
      | ok h => exact .ok h
      | error h => exact .error h
      | first h => exact .first h
      | second h => exact .second h
    | @error halt u v h =>
      have hleft := hkept.left mark s.scope.floor h
      dsimp only
      generalize Action.leave mark s.scope.floor u = x at hleft
      generalize Action.leave mark s.scope.floor v = y at hleft
      cases hleft with
      | ok h => exact .error h
      | error h => exact .error h
      | first h => exact .first h
      | second h => exact .second h
    | @first halt u other h =>
      dsimp only
      cases hleave : Action.leave mark s.scope.floor u with
      | ok _ v => exact .first h
      | error halt v =>
        obtain ⟨fault, rfl⟩ := exists_fault_of_leave hleave
        exact .first trivial
    | @second halt v other h =>
      dsimp only
      cases hleave : Action.leave mark s.scope.floor v with
      | ok _ u => exact .second h
      | error halt u =>
        obtain ⟨fault, rfl⟩ := exists_fault_of_leave hleave
        exact .second trivial

omit hkept in
/-- The loops need not be allowed the same number of turns. -/
theorem iterating
    {f g : σ → Effect (σ ⊕ β)} (hfg : ∀ x, AlikeWithin within R excused (f x) (g x)) (m n : Nat) :
    ∀ x : σ, AlikeWithin within R excused (Action.iterate f m x) (Action.iterate g n x) := by
  induction m generalizing n with
  | zero => exact fun _ => ⟨fun _ h => h, fun _ _ => .first trivial⟩
  | succ m ih =>
    intro x
    have hstep : ∀ n,
        AlikeWithin within R excused (Action.iterate f (m + 1) x) (Action.iterate g (n + 1) x) := by
      intro n
      refine (hfg x).bind fun next => ?_
      cases next with
      | inl y => exact ih n y
      | inr b => exact .done b
    cases n with
    | zero => exact ⟨(hstep 0).back, fun _ _ => .second trivial⟩
    | succ n => exact hstep n

omit hkept in
theorem repeating
    {f g : σ → Effect (σ ⊕ β)}
    (hfg : ∀ x, AlikeWithin within R excused (f x) (g x))
    (x : σ) :
    AlikeWithin within R excused (Action.repeated f x) (Action.repeated g x) where
  back s := (iterating hfg (s.remaining + 1) 0 x).back s
  alike h hwithin := (iterating hfg _ _ x).alike h hwithin

/-- An action keeps the relation if the rules do. -/
theorem run
    {rules others : {β : Type} → Rule β → Effect β}
    (hrules : ∀ {β : Type} (rule : Rule β), AlikeWithin within R excused (rules rule) (others rule))
    (action : Action α) :
    AlikeWithin within R excused (action.run rules) (action.run others) := by
  induction action with
  | done a => exact .done a
  | reject diagnostic => exact .halt _
  | ask request next ih => exact (hkept.request request).bind ih
  | capture body next hbody ih => exact (hkept.capturing hbody).bind ih
  | inProcedure body next hbody ih => exact (hkept.enclosing hbody).bind ih
  | loop turn start next hturn ih => exact (repeating hturn start).bind ih
  | call rule next ih => exact (hrules rule).bind ih

theorem rule (m n : Nat) :
    ∀ {β : Type} (rule : Rule β),
      AlikeWithin within R excused (Rule.run m rule : Effect β) (Rule.run n rule) := by
  induction m generalizing n with
  | zero => exact fun _ => ⟨fun _ h => h, fun _ _ => .first trivial⟩
  | succ m ih =>
    intro β rule
    have hrun : ∀ n,
        AlikeWithin within R excused (Rule.run (m + 1) rule : Effect β) (Rule.run (n + 1) rule) :=
      fun n => hkept.run (ih n) rule.action
    cases n with
    | zero => exact ⟨(hrun 0).back, fun _ _ => .second trivial⟩
    | succ n => exact hrun n

theorem perform (action : Action α) :
    AlikeWithin within R excused action.perform action.perform where
  back s := (hkept.run (hkept.rule (s.remaining + 1) 0) action).back s
  alike h hwithin := (hkept.run (hkept.rule _ _) action).alike h hwithin

/--
Two compilations from related states end alike if the first one stays within, or the first one is
rejected with an excuse.
-/
theorem compiled
    {header source source' : String}
    {limits limits' : Limits}
    {s t : State}
    (hs : State.start source limits = .ok s)
    (ht : State.start source' limits' = .ok t)
    (h : R s t)
    (hwithin : within (endState ((wholeModule header).perform s)).cursor) :
    (∃ u v,
      (wholeModule header).perform s = .ok () u ∧
      (wholeModule header).perform t = .ok () v ∧
      R u v) ∨
    (∃ diagnostic u v,
      (wholeModule header).perform s = .error (.rejected diagnostic) u ∧
      (wholeModule header).perform t = .error (.rejected diagnostic) v ∧
      R u v) ∨
    ∃ diagnostic u,
      (wholeModule header).perform s = .error (.rejected diagnostic) u ∧ excused diagnostic := by
  have halike := (hkept.perform (wholeModule header)).alike h hwithin
  obtain ⟨_, hok⟩ | herror := halike.cases_of_rejected (fun _ _ => exists_rejected_of_perform hs)
    (fun _ _ => exists_rejected_of_perform ht)
  · exact Or.inl hok
  · exact Or.inr herror

end LockstepWithin

/-- What is kept at all cursors. -/
theorem Lockstep.everywhere (hkept : Lockstep R excused) :
    LockstepWithin (fun _ => True) R excused where
  request request := ⟨fun _ _ => trivial, fun h _ => hkept.request request h⟩
  opened := hkept.opened
  captured := hkept.captured
  closed := hkept.closed
  scope := hkept.scope
  entered := hkept.entered
  left := hkept.left

theorem LockstepWithin.lockstep (hkept : LockstepWithin (fun _ => True) R excused) :
    Lockstep R excused where
  request request _ _ h := (hkept.request request).alike h trivial
  opened := hkept.opened
  captured := hkept.captured
  closed := hkept.closed
  scope := hkept.scope
  entered := hkept.entered
  left := hkept.left

/-- Two compilations from related states end alike, or the first one is rejected with an excuse. -/
theorem Lockstep.compiled
    (hkept : Lockstep R excused)
    {header source source' : String}
    {limits limits' : Limits}
    {s t : State}
    (hs : State.start source limits = .ok s)
    (ht : State.start source' limits' = .ok t)
    (h : R s t) :
    (∃ u v,
      (wholeModule header).perform s = .ok () u ∧
      (wholeModule header).perform t = .ok () v ∧
      R u v) ∨
    (∃ diagnostic u v,
      (wholeModule header).perform s = .error (.rejected diagnostic) u ∧
      (wholeModule header).perform t = .error (.rejected diagnostic) v ∧
      R u v) ∨
    ∃ diagnostic u,
      (wholeModule header).perform s = .error (.rejected diagnostic) u ∧ excused diagnostic :=
  hkept.everywhere.compiled hs ht h trivial

/-! ### States that differ in their place -/

/-- The same state at another cursor and token; `P` relates the old place and the new one. -/
def Moved (P : Cursor → Token → Cursor → Token → Prop) (s t : State) : Prop :=
  ∃ cursor token, P s.cursor s.token cursor token ∧ t = { s with cursor, token }

section Moved

variable {P : Cursor → Token → Cursor → Token → Prop} {s t : State}

theorem Moved.change (h : Moved P s t) (change : SymbolTable → Except Fault SymbolTable) :
    Alike (Moved P) excused (Request.changeSymbols change s) (Request.changeSymbols change t) := by
  obtain ⟨cursor, token, hplace, rfl⟩ := h
  unfold Request.changeSymbols
  cases change s.symbols with
  | ok symbols => exact .ok ⟨cursor, token, hplace, rfl⟩
  | error fault => exact .error ⟨cursor, token, hplace, rfl⟩

/-- Besides taking a token, no request moves the cursor. -/
theorem back_perform
    (htake : ∀ s, within (endState (Request.takeToken s)).cursor → within s.cursor)
    (request : Request β)
    (s : State)
    (h : within (endState (request.perform s)).cursor) :
    within s.cursor := by
  have hends := request.ends_perform s
  generalize endState (request.perform s) = t at h hends
  cases hends with
  | take htaken => exact htake s (htaken ▸ h)
  | _ => exact h

/-- What is asked of the places only concerns taking a token and looking at one. -/
theorem lockstepWithin_moved
    (htake : AlikeWithin within (Moved P) excused Request.takeToken Request.takeToken)
    (hlook : ∀ {c c' : Cursor} {token token' : Token}, P c token c' token' →
      token.kind = token'.kind ∧ token.lexeme = token'.lexeme) :
    LockstepWithin within (Moved P) excused where
  request request := by
    refine ⟨back_perform htake.back request, fun {s t} hs hwithin => ?_⟩
    have h := hs
    obtain ⟨cursor, token, hplace, rfl⟩ := h
    cases request with
    | take => exact htake.alike hs hwithin
    | look =>
      change Alike _ _ (.ok (s.token.kind, s.token.lexeme) s) (.ok (token.kind, token.lexeme) _)
      rw [(hlook hplace).1, (hlook hplace).2]
      exact .ok hs
    | declare name kind type =>
      change Alike _ _ (Request.declareSymbol name kind type s)
        (Request.declareSymbol name kind type _)
      unfold Request.declareSymbol
      cases s.symbols.add name kind type with
      | ok added => exact .ok ⟨cursor, token, hplace, rfl⟩
      | error e => exact .error ⟨cursor, token, hplace, rfl⟩
    | setType index type => exact hs.change fun table => table.setType index type
    | setSignature index exported parameters result =>
      refine (hs.change _).bind fun _ u v h => ?_
      obtain ⟨cursor, token, hplace, rfl⟩ := h
      exact .ok ⟨cursor, token, hplace, rfl⟩
    | find name => exact Alike.ofTable hs (s.symbols.find name)
    | symbol index => exact Alike.ofTable hs (s.symbols.get index)
    | nameOf index => exact Alike.ofTable hs (s.symbols.name index)
    | resolve index => exact Alike.ofTable hs (s.symbols.resolve index)
    | requireCompatible a b => exact Alike.ofTypes hs (s.types.requireCompatible a b)
    | element type => exact Alike.ofTypes hs (s.types.element type)
    | form type => exact .ok hs
    | moduleName => exact .ok hs
    | scope => exact .ok hs
    | write text => exact .ok ⟨cursor, token, hplace, rfl⟩
    | publish text => exact .ok ⟨cursor, token, hplace, rfl⟩
    | addType shape => exact .ok ⟨cursor, token, hplace, rfl⟩
    | nameModule name => exact .ok ⟨cursor, token, hplace, rfl⟩
  opened h := by
    obtain ⟨cursor, token, hplace, rfl⟩ := h
    exact ⟨cursor, token, hplace, rfl⟩
  captured h := by
    obtain ⟨cursor, token, hplace, rfl⟩ := h
    rfl
  closed h := by
    obtain ⟨cursor, token, hplace, rfl⟩ := h
    exact ⟨cursor, token, hplace, rfl⟩
  scope h := by
    obtain ⟨cursor, token, hplace, rfl⟩ := h
    exact ⟨rfl, rfl⟩
  entered scope h := by
    obtain ⟨cursor, token, hplace, rfl⟩ := h
    exact ⟨cursor, token, hplace, rfl⟩
  left mark floor h := by
    obtain ⟨cursor, token, hplace, rfl⟩ := h
    unfold Action.leave
    dsimp only
    split
    · exact .ok ⟨cursor, token, hplace, rfl⟩
    · exact .error ⟨cursor, token, hplace, rfl⟩

end Moved

end Compilation
end Oberon
