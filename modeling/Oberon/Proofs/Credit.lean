import Oberon.Proofs.Progress

/-!
# Counted runs

What a run costs, in turns of loops and calls of rules, and how the tokens that it takes pay for it.

**Runs without bounds.**  `Action.Proceeds` describes the run of an action with no limit on turns or
on depth, and counts both.  It demands progress instead: a turn with another one behind it takes a
token, and a rule that is called inside another one starts with fewer tokens to come.  A run that
proceeds is the run of `Action.run` at every depth that is large enough (`Proceeds.run_eq`).

**Credits.**  Every token to come is worth fourteen credits, and every turn and every call costs
one.  `AffordsAt bound p q action s` says that the action proceeds from `s`, that `p` credits
besides the tokens it takes pay for it, and that `q` credits are left if it succeeds.  `Costs bound
limit action c` says so of all states with fewer than `limit` tokens to come, with `c` credits and
nothing left; it is found from the parts of the action.

**Loops.**  A loop costs a credit for its last turn.  Every other turn takes a token, which has to
pay for what the turn does and for the turn behind it (`AffordsAt.turns`).
-/

namespace Oberon
namespace Compilation

/-- How an effect ends. -/
abbrev Outcome (α : Type) := EStateM.Result Halt State α

/-- The effect that ends in one way from every state. -/
def settled {α : Type} (outcome : Outcome α) : Effect α := fun _ => outcome

namespace Action

/--
Performing `action` in `s` comes to an end with `outcome`, after `n` turns of loops and calls of
rules.  Every turn with another one behind it takes a token.  Rules are called with fewer than
`bound` tokens to come, and inside a rule with fewer than the rule itself started with.
-/
inductive Proceeds : Nat → {α : Type} → Action α → State → Nat → Outcome α → Prop
  | done {bound : Nat} {α : Type} (a : α) (s : State) : Proceeds bound (.done a) s 0 (.ok a s)
  | reject {bound : Nat} {α : Type} (diagnostic : Diagnostic) (s : State) :
      Proceeds bound (.reject diagnostic : Action α) s 0 (.error (.rejected diagnostic) s)
  | ask
      {bound n : Nat}
      {α β : Type}
      {request : Request β}
      {next : β → Action α}
      {s t : State}
      {b : β}
      {outcome : Outcome α} :
      request.perform s = .ok b t →
      Proceeds bound (next b) t n outcome →
      Proceeds bound (.ask request next) s n outcome
  | askHalts
      {bound : Nat}
      {α β : Type}
      {request : Request β}
      {next : β → Action α}
      {s t : State}
      {halt : Halt} :
      request.perform s = .error halt t → Proceeds bound (.ask request next) s 0 (.error halt t)
  | capture
      {bound m n : Nat}
      {α β : Type}
      {body : Action β}
      {next : β × String → Action α}
      {s t : State}
      {b : β × String}
      {inner : Outcome β}
      {outcome : Outcome α} :
      Proceeds bound body { s with output := s.output.openCapture } m inner →
      captured (settled inner) s = .ok b t →
      Proceeds bound (next b) t n outcome →
      Proceeds bound (.capture body next) s (m + n) outcome
  | captureHalts
      {bound n : Nat}
      {α β : Type}
      {body : Action β}
      {next : β × String → Action α}
      {s t : State}
      {halt : Halt}
      {inner : Outcome β} :
      Proceeds bound body { s with output := s.output.openCapture } n inner →
      captured (settled inner) s = .error halt t →
      Proceeds bound (.capture body next) s n (.error halt t)
  | procedure
      {bound m n : Nat}
      {α β : Type}
      {body : Action β}
      {next : β → Action α}
      {s t : State}
      {b : β}
      {inner : Outcome β}
      {outcome : Outcome α} :
      Proceeds bound body s.entered m inner →
      enclosed (settled inner) s = .ok b t →
      Proceeds bound (next b) t n outcome →
      Proceeds bound (.inProcedure body next) s (m + n) outcome
  | procedureHalts
      {bound n : Nat}
      {α β : Type}
      {body : Action β}
      {next : β → Action α}
      {s t : State}
      {halt : Halt}
      {inner : Outcome β} :
      Proceeds bound body s.entered n inner →
      enclosed (settled inner) s = .error halt t →
      Proceeds bound (.inProcedure body next) s n (.error halt t)
  | lastTurn
      {bound m n : Nat}
      {α β σ : Type}
      {turn : σ → Action (σ ⊕ β)}
      {x : σ}
      {next : β → Action α}
      {s t : State}
      {b : β}
      {outcome : Outcome α} :
      Proceeds bound (turn x) s m (.ok (.inr b) t) →
      Proceeds bound (next b) t n outcome →
      Proceeds bound (.loop turn x next) s (m + n + 1) outcome
  | nextTurn
      {bound m n : Nat}
      {α β σ : Type}
      {turn : σ → Action (σ ⊕ β)}
      {x y : σ}
      {next : β → Action α}
      {s t : State}
      {outcome : Outcome α} :
      Proceeds bound (turn x) s m (.ok (.inl y) t) →
      t.remaining < s.remaining →
      Proceeds bound (.loop turn y next) t n outcome →
      Proceeds bound (.loop turn x next) s (m + n + 1) outcome
  | turnHalts
      {bound n : Nat}
      {α β σ : Type}
      {turn : σ → Action (σ ⊕ β)}
      {x : σ}
      {next : β → Action α}
      {s t : State}
      {halt : Halt} :
      Proceeds bound (turn x) s n (.error halt t) →
      Proceeds bound (.loop turn x next) s (n + 1) (.error halt t)
  | call
      {bound m n : Nat}
      {α β : Type}
      {rule : Rule β}
      {next : β → Action α}
      {s t : State}
      {b : β}
      {outcome : Outcome α} :
      s.remaining < bound →
      Proceeds s.remaining rule.action s m (.ok b t) →
      Proceeds bound (next b) t n outcome →
      Proceeds bound (.call rule next) s (m + n + 1) outcome
  | callHalts
      {bound n : Nat}
      {α β : Type}
      {rule : Rule β}
      {next : β → Action α}
      {s t : State}
      {halt : Halt} :
      s.remaining < bound →
      Proceeds s.remaining rule.action s n (.error halt t) →
      Proceeds bound (.call rule next) s (n + 1) (.error halt t)

end Action

variable {α β σ : Type} {bound limit m n : Nat} {s t : State} {halt : Halt}

/-! ### Agreement with bounded runs -/

theorem Effect.bind_of_ok
    {x : Effect α}
    {f : α → Effect β}
    {a : α}
    (h : x s = .ok a t) :
    (x >>= f) s = f a t := by
  change EStateM.bind x f s = _
  rw [EStateM.bind, h]

theorem Effect.bind_of_error
    {x : Effect α} {f : α → Effect β} (h : x s = .error halt t) :
    (x >>= f) s = .error halt t := by
  change EStateM.bind x f s = _
  rw [EStateM.bind, h]

/-- What follows an effect depends on nothing but how the effect ends. -/
theorem Effect.bind_eq_of_eq
    {x y : Effect α} (h : x s = y t) (f : α → Effect β) :
    (x >>= f) s = (y >>= f) t := by
  change EStateM.bind x f s = EStateM.bind y f t
  rw [EStateM.bind, EStateM.bind, h]

namespace Action

theorem captured_of_eq
    {x : Effect α}
    {inner : Outcome α}
    (h : x { s with output := s.output.openCapture } = inner) :
    captured x s = captured (settled inner) s := by
  unfold captured settled
  rw [h]

theorem enclosed_of_eq {x : Effect α} {inner : Outcome α}
    (h : x s.entered = inner) :
    enclosed x s = enclosed (settled inner) s := by
  unfold enclosed settled
  rw [h]

/--
At a depth an action ends with an outcome; a loop does so with any number of turns above that of the
tokens to come.
-/
def EndsWith (depth : Nat) : {α : Type} → Action α → State → Outcome α → Prop
  | _, loop turn x next, s, outcome => ∀ count, s.remaining < count →
      (iterate (fun x => (turn x).run (Rule.run depth)) count x >>=
        fun b => (next b).run (Rule.run depth)) s = outcome
  | _, action, s, outcome => action.run (Rule.run depth) s = outcome

theorem EndsWith.run_eq
    {depth : Nat}
    {action : Action α}
    {outcome : Outcome α}
    (h : action.EndsWith depth s outcome) :
    action.run (Rule.run depth) s = outcome := by
  cases action with
  | loop turn x next => exact h (s.remaining + 1) (Nat.lt_succ_self _)
  | _ => exact h

namespace Proceeds

theorem endsWith {action : Action α} {outcome : Outcome α} (h : action.Proceeds bound s n outcome) :
    ∀ depth, bound ≤ depth → action.EndsWith depth s outcome := by
  induction h with
  | done a s => exact fun _ _ => rfl
  | reject diagnostic s => exact fun _ _ => rfl
  | ask hperform _ ih =>
    intro depth hdepth
    exact (Effect.bind_of_ok hperform).trans (ih depth hdepth).run_eq
  | askHalts hperform => exact fun _ _ => Effect.bind_of_error hperform
  | capture _ hcaptured _ hbody ih =>
    intro depth hdepth
    refine (Effect.bind_of_ok ?_).trans (ih depth hdepth).run_eq
    exact (captured_of_eq (hbody depth hdepth).run_eq).trans hcaptured
  | captureHalts _ hcaptured hbody =>
    intro depth hdepth
    exact Effect.bind_of_error ((captured_of_eq (hbody depth hdepth).run_eq).trans hcaptured)
  | procedure _ henclosed _ hbody ih =>
    intro depth hdepth
    refine (Effect.bind_of_ok ?_).trans (ih depth hdepth).run_eq
    exact (enclosed_of_eq (hbody depth hdepth).run_eq).trans henclosed
  | procedureHalts _ henclosed hbody =>
    intro depth hdepth
    exact Effect.bind_of_error ((enclosed_of_eq (hbody depth hdepth).run_eq).trans henclosed)
  | lastTurn _ _ hturn ih =>
    intro depth hdepth count hcount
    obtain ⟨count, rfl⟩ : ∃ k, count = k + 1 := ⟨count - 1, by omega⟩
    refine (Effect.bind_of_ok ?_).trans (ih depth hdepth).run_eq
    exact Effect.bind_of_ok (hturn depth hdepth).run_eq
  | nextTurn _ hlt _ hturn ih =>
    -- The turns behind this one have a token less to come, so one turn less is still enough for
    -- them.
    intro depth hdepth count hcount
    obtain ⟨count, rfl⟩ : ∃ k, count = k + 1 := ⟨count - 1, by omega⟩
    refine (Effect.bind_eq_of_eq ?_ _).trans (ih depth hdepth count (by omega))
    exact Effect.bind_of_ok (hturn depth hdepth).run_eq
  | turnHalts _ hturn =>
    intro depth hdepth count hcount
    obtain ⟨count, rfl⟩ : ∃ k, count = k + 1 := ⟨count - 1, by omega⟩
    exact Effect.bind_of_error (Effect.bind_of_error (hturn depth hdepth).run_eq)
  | call hlt _ _ hrule ih =>
    intro depth hdepth
    obtain ⟨depth, rfl⟩ : ∃ k, depth = k + 1 := ⟨depth - 1, by omega⟩
    exact (Effect.bind_of_ok (hrule depth (by omega)).run_eq).trans (ih (depth + 1) hdepth).run_eq
  | callHalts hlt _ hrule =>
    intro depth hdepth
    obtain ⟨depth, rfl⟩ : ∃ k, depth = k + 1 := ⟨depth - 1, by omega⟩
    exact Effect.bind_of_error (hrule depth (by omega)).run_eq

/-- A run that proceeds is the run at every depth from its bound on. -/
theorem run_eq
    {action : Action α}
    {outcome : Outcome α}
    (h : action.Proceeds bound s n outcome)
    {depth : Nat}
    (hdepth : bound ≤ depth) :
    action.run (Rule.run depth) s = outcome :=
  (h.endsWith depth hdepth).run_eq

theorem gives
    {action : Action α} {a : α} (h : action.Proceeds bound s n (.ok a t)) :
    action.Gives bound s a t :=
  h.run_eq (Nat.le_refl bound)

theorem remaining_le
    {action : Action α} {outcome : Outcome α} (h : action.Proceeds bound s n outcome) :
    (endState outcome).remaining ≤ s.remaining := by
  rw [← h.run_eq (Nat.le_refl bound)]
  exact kept_remaining.run (kept_remaining.rule bound) action s

/-! ### One action behind another -/

/-- What follows an action that succeeds starts where that one ended. -/
theorem bind
    {x : Action α}
    {f : α → Action β}
    {a : α}
    {outcome : Outcome β}
    (hx : x.Proceeds bound s m (.ok a t))
    (hf : (f a).Proceeds bound t n outcome) :
    (x >>= f).Proceeds bound s (m + n) outcome := by
  change (x.bind f).Proceeds bound s (m + n) outcome
  generalize hfirst : EStateM.Result.ok a t = first at hx
  induction hx with
  | done b s =>
    cases hfirst
    simpa [Action.bind] using hf
  | reject diagnostic s => cases hfirst
  | ask hperform _ ih => exact .ask hperform (ih hf hfirst)
  | askHalts hperform => cases hfirst
  | capture hbody hcaptured _ _ ih =>
    rw [Nat.add_assoc]
    exact .capture hbody hcaptured (ih hf hfirst)
  | captureHalts hbody hcaptured _ => cases hfirst
  | procedure hbody henclosed _ _ ih =>
    rw [Nat.add_assoc]
    exact .procedure hbody henclosed (ih hf hfirst)
  | procedureHalts hbody henclosed _ => cases hfirst
  | lastTurn hturn _ _ ih =>
    rw [Nat.add_right_comm, Nat.add_assoc _ _ n]
    exact .lastTurn hturn (ih hf hfirst)
  | nextTurn hturn hlt _ _ ih =>
    rw [Nat.add_right_comm, Nat.add_assoc _ _ n]
    exact .nextTurn hturn hlt (ih hf hfirst)
  | turnHalts hturn _ => cases hfirst
  | call hlt hrule _ _ ih =>
    rw [Nat.add_right_comm, Nat.add_assoc _ _ n]
    exact .call hlt hrule (ih hf hfirst)
  | callHalts hlt hrule _ => cases hfirst

/-- Nothing follows an action that halts. -/
theorem bind_of_halts
    {x : Action α} (hx : x.Proceeds bound s n (.error halt t)) (f : α → Action β) :
    (x >>= f).Proceeds bound s n (.error halt t) := by
  change (x.bind f).Proceeds bound s n (.error halt t)
  generalize hfirst : EStateM.Result.error halt t = first at hx
  induction hx with
  | done b s => cases hfirst
  | reject diagnostic s =>
    cases hfirst
    exact .reject diagnostic _
  | ask hperform _ ih => exact .ask hperform (ih f hfirst)
  | askHalts hperform =>
    cases hfirst
    exact .askHalts hperform
  | capture hbody hcaptured _ _ ih => exact .capture hbody hcaptured (ih f hfirst)
  | captureHalts hbody hcaptured _ =>
    cases hfirst
    exact .captureHalts hbody hcaptured
  | procedure hbody henclosed _ _ ih => exact .procedure hbody henclosed (ih f hfirst)
  | procedureHalts hbody henclosed _ =>
    cases hfirst
    exact .procedureHalts hbody henclosed
  | lastTurn hturn _ _ ih => exact .lastTurn hturn (ih f hfirst)
  | nextTurn hturn hlt _ _ ih => exact .nextTurn hturn hlt (ih f hfirst)
  | turnHalts hturn _ =>
    cases hfirst
    exact .turnHalts hturn
  | call hlt hrule _ _ ih => exact .call hlt hrule (ih f hfirst)
  | callHalts hlt hrule _ =>
    cases hfirst
    exact .callHalts hlt hrule

end Proceeds

end Action

open Oberon.Compilation.Action

/-! ### Credits -/

/-- What the tokens to come are worth. -/
def State.credit (s : State) : Nat := 14 * s.remaining

/--
The credits behind a run: what the tokens to come are worth and, on success, what is left besides.
-/
def balance (q : α → Nat) : Outcome α → Nat
  | .ok a t => t.credit + q a
  | .error _ t => t.credit

theorem balance_zero (outcome : Outcome α) :
    balance (fun _ => 0) outcome = (endState outcome).credit := by
  cases outcome <;> rfl

/--
The tokens that the action takes from `s` on and `p` credits pay for it; if it succeeds, `q` credits
are left.
-/
def AffordsAt (bound p : Nat) (q : α → Nat) (action : Action α) (s : State) : Prop :=
  ∃ n outcome, action.Proceeds bound s n outcome ∧ n + balance q outcome ≤ s.credit + p

namespace AffordsAt

variable {p r : Nat} {q : α → Nat} {action : Action α}

theorem weaken
    {p' : Nat}
    {q' : α → Nat}
    (h : AffordsAt bound p q action s)
    (hp : p ≤ p')
    (hq : ∀ a, q' a ≤ q a) :
    AffordsAt bound p' q' action s := by
  obtain ⟨n, outcome, hproceeds, hle⟩ := h
  refine ⟨n, outcome, hproceeds, ?_⟩
  cases outcome with
  | ok a t =>
    have := hq a
    simp only [balance] at hle ⊢
    omega
  | error halt t =>
    simp only [balance] at hle ⊢
    omega

/-- Credits that are not needed are left. -/
theorem spare (h : AffordsAt bound p q action s) (k : Nat) :
    AffordsAt bound (p + k) (fun a => q a + k) action s := by
  obtain ⟨n, outcome, hproceeds, hle⟩ := h
  refine ⟨n, outcome, hproceeds, ?_⟩
  cases outcome with
  | ok a t =>
    simp only [balance] at hle ⊢
    omega
  | error halt t =>
    simp only [balance] at hle ⊢
    omega

theorem bind
    {x : Action α}
    {f : α → Action β}
    {r : β → Nat}
    (hx : AffordsAt bound p q x s)
    (hf : ∀ a t, x.Gives bound s a t → AffordsAt bound (q a) r (f a) t) :
    AffordsAt bound p r (x >>= f) s := by
  obtain ⟨m, first, hfirst, hle⟩ := hx
  cases first with
  | ok a t =>
    obtain ⟨n, outcome, hrest, hrestle⟩ := hf a t hfirst.gives
    refine ⟨m + n, outcome, hfirst.bind hrest, ?_⟩
    simp only [balance] at hle
    omega
  | error halt t => exact ⟨m, .error halt t, hfirst.bind_of_halts f, hle⟩

theorem pure {a : α} (h : q a ≤ p) : AffordsAt bound p q (Pure.pure a : Action α) s :=
  ⟨0, .ok a s, .done a s, by simp only [balance]; omega⟩

theorem reject (diagnostic : Diagnostic) :
    AffordsAt bound p q (Action.reject diagnostic : Action α) s :=
  ⟨0, .error (.rejected diagnostic) s, .reject diagnostic s, by simp only [balance]; omega⟩

/-- A capture is paid by what is captured. -/
theorem textOf
    {body : Action α}
    (h : AffordsAt bound p q body { s with output := s.output.openCapture }) :
    AffordsAt bound p (fun found => q found.1) (Action.textOf body) s := by
  obtain ⟨n, inner, hinner, hle⟩ := h
  cases inner with
  | ok a t => exact ⟨n + 0, _, .capture hinner rfl (.done _ _), hle⟩
  | error halt t => exact ⟨n, _, .captureHalts hinner rfl, hle⟩

/--
The last turn of a loop has to be paid with a credit, and a turn with another one behind it leaves
one for that.
-/
theorem turns
    {turn : σ → Action (σ ⊕ β)}
    {q : β → Nat}
    (hadvancing : Advancing bound turn)
    (hturn : ∀ x s, s.remaining < limit →
      AffordsAt bound p (Sum.elim (fun _ => p + 1) q) (turn x) s)
    (x : σ)
    (hs : s.remaining < limit) :
    AffordsAt bound (p + 1) q (Action.turns turn x) s := by
  induction hremaining : s.remaining using Nat.strong_induction_on generalizing x s with
  | _ remaining ih =>
    subst hremaining
    obtain ⟨m, first, hfirst, hle⟩ := hturn x s hs
    cases first with
    | ok next t =>
      cases next with
      | inl y =>
        have hlt := hadvancing x s y t hfirst.gives
        obtain ⟨n, outcome, hrest, hrestle⟩ := ih t.remaining hlt y (Nat.lt_trans hlt hs) rfl
        refine ⟨m + n + 1, outcome, .nextTurn hfirst hlt hrest, ?_⟩
        simp only [balance, Sum.elim_inl] at hle
        omega
      | inr b =>
        refine ⟨m + 0 + 1, .ok b t, .lastTurn hfirst (.done b t), ?_⟩
        simp only [balance, Sum.elim_inr] at hle ⊢
        omega
    | error halt t =>
      refine ⟨m + 1, .error halt t, .turnHalts hfirst, ?_⟩
      simp only [balance] at hle ⊢
      omega

theorem repeatWhile
    {more : Action Bool}
    {body : Action Unit}
    (hadvancing : ∀ s u v, more.Gives bound s true u → body.Gives bound u () v →
      v.remaining < s.remaining)
    (hmore : ∀ s, s.remaining < limit →
      AffordsAt bound p (fun again => bif again then r else 0) more s)
    (hbody : ∀ s, s.remaining < limit → AffordsAt bound r (fun _ => p + 1) body s)
    (hs : s.remaining < limit) :
    AffordsAt bound (p + 1) (fun _ => 0) (Action.repeatWhile more body) s := by
  refine turns (advancing_repeatWhile hadvancing) (fun _ s hs => ?_) () hs
  refine (hmore s hs).bind fun again t hgives => ?_
  cases again with
  | true =>
    have ht := Nat.lt_of_le_of_lt hgives.remaining_le hs
    exact (hbody t ht).bind fun _ u _ => pure (Nat.le_refl _)
  | false => exact pure (Nat.le_refl _)

end AffordsAt

/-! ### Actions without loops and calls -/

/-- The action has neither loops nor calls. -/
class Plain (action : Action α) : Prop where
  proceeds : ∀ bound s, ∃ outcome, action.Proceeds bound s 0 outcome

namespace Plain

instance (a : α) : Plain (pure a : Action α) := ⟨fun _ s => ⟨_, .done a s⟩⟩

instance (diagnostic : Diagnostic) :
    Plain (reject diagnostic : Action α) :=
  ⟨fun _ s => ⟨_, .reject diagnostic s⟩⟩

theorem ask (request : Request α) : Plain (Action.ask request done) where
  proceeds bound s := by
    cases hperform : request.perform s with
    | ok a t => exact ⟨_, .ask hperform (.done a t)⟩
    | error halt t => exact ⟨_, .askHalts hperform⟩

theorem bind
    {x : Action α}
    {f : α → Action β}
    [hx : Plain x]
    (hf : ∀ a, Plain (f a)) :
    Plain (x >>= f) where
  proceeds bound s := by
    obtain ⟨first, hfirst⟩ := hx.proceeds bound s
    cases first with
    | ok a t =>
      obtain ⟨outcome, houtcome⟩ := (hf a).proceeds bound t
      exact ⟨outcome, hfirst.bind houtcome⟩
    | error halt t => exact ⟨_, hfirst.bind_of_halts f⟩

instance
    (x : Action α)
    (f : α → Action β)
    [Plain x]
    [hf : ∀ a, Plain (f a)] :
    Plain (x >>= f) :=
  .bind hf

instance (diagnostic : Diagnostic) (f : α → Action β) : Plain (reject diagnostic >>= f) :=
  inferInstanceAs (Plain (reject diagnostic : Action β))

instance (f : α → β) (x : Action α) [Plain x] : Plain (f <$> x) := by
  rw [← bind_pure_comp]
  infer_instance

instance (x : Action α) [Plain x] :
    Plain (discard x) :=
  inferInstanceAs (Plain ((fun _ => ()) <$> x))

instance ite
    (p : Prop)
    [Decidable p]
    (x y : Action α)
    [hx : Plain x]
    [hy : Plain y] :
    Plain (if p then x else y) := by
  split
  · exact hx
  · exact hy

instance (f : α → Action Unit) (items : List α) [∀ a, Plain (f a)] : Plain (items.forM f) := by
  induction items <;> (unfold List.forM; infer_instance)

instance (f : α → Action β) (items : List α) [∀ a, Plain (f a)] : Plain (items.mapM f) := by
  rw [← List.mapM'_eq_mapM]
  induction items <;> (unfold List.mapM'; infer_instance)

variable {p : Nat}

/-- Nothing has to be paid, and where a token is taken it is earned. -/
theorem affordsAt {x : Action α} [hx : Plain x] (earns : α → Bool)
    (htakes : ∀ a t, x.Gives bound s a t → earns a = true → t.remaining < s.remaining) :
    AffordsAt bound p (fun a => bif earns a then p + 14 else p) x s := by
  obtain ⟨outcome, houtcome⟩ := hx.proceeds bound s
  refine ⟨0, outcome, houtcome, ?_⟩
  have hle := houtcome.remaining_le
  cases outcome with
  | ok a t =>
    have htaken := htakes a t houtcome.gives
    simp only [endState] at hle
    simp only [balance, State.credit]
    cases hearns : earns a with
    | true =>
      have hlt := htaken hearns
      simp only [cond_true]
      omega
    | false =>
      simp only [cond_false]
      omega
  | error halt t =>
    simp only [endState] at hle
    simp only [balance, State.credit]
    omega

/-- Where no token is taken for certain, nothing is earned. -/
theorem affordsAt_same {x : Action α} [Plain x] : AffordsAt bound p (fun _ => p) x s :=
  affordsAt (fun _ => false) (by simp)

end Plain

/-! ### Costs -/

/--
With fewer than `limit` tokens to come, the tokens that the action takes and `c` credits pay for it.
-/
class Costs (bound limit : Nat) (action : Action α) (c : outParam Nat) : Prop where
  affords : ∀ s, s.remaining < limit → AffordsAt bound c (fun _ => 0) action s

namespace Costs

variable {c d : Nat}

theorem weaken
    {action : Action α} (h : Costs bound limit action c) (hle : c ≤ d) :
    Costs bound limit action d where
  affords s hs := (h.affords s hs).weaken hle fun _ => Nat.le_refl _

/-- What is not spent of the credits at hand is left. -/
theorem within
    {action : Action α}
    [h : Costs bound limit action c]
    {p : Nat}
    {q : α → Nat}
    (k : Nat)
    (hc : c + k ≤ p)
    (hq : ∀ a, q a ≤ k)
    (hs : s.remaining < limit) :
    AffordsAt bound p q action s :=
  ((h.affords s hs).spare k).weaken hc fun a => by
    have := hq a
    omega

instance (priority := low) (action : Action α) [Plain action] : Costs bound limit action 0 where
  affords _ _ := Plain.affordsAt_same

theorem bind
    {x : Action α}
    {f : α → Action β}
    [Costs bound limit x c]
    (hf : ∀ a, Costs bound limit (f a) d) :
    Costs bound limit (x >>= f) (c + d) where
  affords s hs := by
    refine (within d (Nat.le_refl (c + d)) (fun _ => Nat.le_refl d) hs).bind fun a t hgives => ?_
    exact (hf a).affords t (Nat.lt_of_le_of_lt hgives.remaining_le hs)

instance
    (x : Action α)
    (f : α → Action β)
    [Costs bound limit x c]
    [hf : ∀ a, Costs bound limit (f a) d] :
    Costs bound limit (x >>= f) (c + d) :=
  .bind hf

instance (f : α → β) (x : Action α) [Costs bound limit x c] : Costs bound limit (f <$> x) c := by
  rw [← bind_pure_comp]
  exact .weaken (c := c + 0) inferInstance (Nat.le_refl _)

instance (x : Action α) [Costs bound limit x c] : Costs bound limit (discard x) c :=
  inferInstanceAs (Costs bound limit ((fun _ => ()) <$> x) c)

instance ite
    (p : Prop)
    [Decidable p]
    (x y : Action α)
    [hx : Costs bound limit x c]
    [hy : Costs bound limit y d] :
    Costs bound limit (if p then x else y) (max c d) := by
  split
  · exact hx.weaken (Nat.le_max_left c d)
  · exact hy.weaken (Nat.le_max_right c d)

instance (body : Action α) [hbody : Costs bound limit body c] :
    Costs bound limit (textOf body) c where
  affords s hs := (hbody.affords { s with output := s.output.openCapture } hs).textOf

instance (body : Action α) [hbody : Costs bound limit body c] :
    Costs bound limit (inProcedure body done) c where
  affords s hs := by
    obtain ⟨n, inner, hinner, hle⟩ := hbody.affords s.entered hs
    have hbalance : balance (fun _ => 0) (enclosed (settled inner) s) =
        balance (fun _ => 0) inner := by
      rw [balance_zero, balance_zero, endState_enclosed, State.credit, remaining_endState_leave]
      rfl
    cases henclosed : enclosed (settled inner) s with
    | ok a t =>
      refine ⟨n + 0, _, .procedure hinner henclosed (.done a t), ?_⟩
      rw [← henclosed, hbalance]
      exact hle
    | error halt t =>
      refine ⟨n, _, .procedureHalts hinner henclosed, ?_⟩
      rw [← henclosed, hbalance]
      exact hle

/-- An action that takes a token pays for what follows it, which has one token less to come. -/
theorem behind
    {x : Action α}
    {f : α → Action β}
    {k r : Nat}
    (hx : AffordsAt bound 0 (fun _ => k) x s)
    (htakes : ∀ a t, x.Gives bound s a t → t.remaining < s.remaining)
    (hf : ∀ a, Costs bound limit (f a) c)
    (hc : c + r ≤ k)
    (hs : s.remaining < limit + 1) :
    AffordsAt bound 0 (fun _ => r) (x >>= f) s := by
  refine hx.bind fun a t hgives => ?_
  have ht := Nat.lt_of_lt_of_le (htakes a t hgives) (Nat.le_of_lt_succ hs)
  exact within r hc (fun _ => Nat.le_refl r) ht

/--
The question for another round takes a token, which pays for the round and for the turn behind it.
-/
theorem repeatWhile
    {more : Action Bool}
    {body : Action Unit}
    [Plain more]
    [Costs bound limit body c]
    (hc : c + 1 ≤ 14)
    (htakes : ∀ s u, more.Gives bound s true u → u.remaining < s.remaining) :
    Costs bound limit (Action.repeatWhile more body) 1 where
  affords s hs := by
    refine AffordsAt.repeatWhile (p := 0) (r := 14) (fun s u v hmore hgives => ?_) (fun s _ => ?_)
      (fun s hs => ?_) hs
    · exact Nat.lt_of_le_of_lt hgives.remaining_le (htakes s u hmore)
    · refine (Plain.affordsAt id fun again t hgives hagain => ?_).weaken (Nat.le_refl 0)
        fun again => ?_
      · obtain rfl : again = true := hagain
        exact htakes s t hgives
      · cases again <;> exact Nat.le_refl _
    · exact within 1 hc (fun _ => Nat.le_refl 1) hs

/-- The sign between two items takes a token, which pays for the item behind it and its turn. -/
theorem separated
    {item : Action α}
    {more : Action Bool}
    [hitem : Costs bound limit item c]
    [Plain more]
    (hc : c + 1 ≤ 14)
    (htakes : ∀ s u, more.Gives bound s true u → u.remaining < s.remaining) :
    Costs bound limit (Action.separated item more) (c + 1) where
  affords s hs := by
    refine AffordsAt.turns (advancing_separated fun s a u v hitem hmore => ?_)
      (fun taken s hs => ?_) [] hs
    · exact Nat.lt_of_lt_of_le (htakes u v hmore) hitem.remaining_le
    · refine (hitem.affords s hs).bind fun a t _ => ?_
      refine (Plain.affordsAt id fun again u hgives hagain => ?_).bind fun again u _ => ?_
      · obtain rfl : again = true := hagain
        exact htakes t u hgives
      · cases again with
        | true => exact AffordsAt.pure (by simpa using hc)
        | false => exact AffordsAt.pure (Nat.le_refl _)

end Costs

end Compilation
end Oberon
