import Oberon.Proofs.Reachability

/-!
# Moments of a run

A moment of a run is a state that the run comes through together with the request that is made
there.  `Action.Comes` says that performing an action comes to a moment.

**Terms.**  `Honors terms P action Q` says of an action that starts in a state with `P`: all its
moments, and the state in which it halts if it does, are as the terms demand, and if it succeeds its
result and its last state have `Q`.  It is shown for an action from its parts.  The scope of a
procedure may be run under terms of its own (`Honors.inProcedure`), and it is left also on a halt.

**Relations.**  A relation that requests keep at the moments of a run holds between the start and
the end of the run (`KeptAt.run`).
-/

namespace Oberon
namespace Compilation

variable {α β σ : Type}

/-- A request together with the type of its answer. -/
abbrev Ask := (β : Type) × Request β

namespace Action

/-- The request that an action begins with, if it begins with one. -/
def first : {α : Type} → Action α → Option Ask
  | _, ask request _ => some ⟨_, request⟩
  | _, _ => none

/--
With at most `depth` rules inside each other, performing `action` in `s` comes through `u`, where it
makes the request `next` if there is one.
-/
inductive Comes : Nat → {α : Type} → Action α → State → Option Ask → State → Prop
  | here
      {depth : Nat}
      {α : Type}
      (action : Action α)
      (s : State) :
      Comes depth action s action.first s
  | ask
      {depth : Nat}
      {α β : Type}
      {request : Request β}
      {next : β → Action α}
      {b : β}
      {s t u : State}
      {moment : Option Ask} :
      request.perform s = .ok b t →
      Comes depth (next b) t moment u →
      Comes depth (.ask request next) s moment u
  | captured
      {depth : Nat}
      {α β : Type}
      {body : Action β}
      {next : β × String → Action α}
      {s u : State}
      {moment : Option Ask} :
      Comes depth body { s with output := s.output.openCapture } moment u →
      Comes depth (.capture body next) s moment u
  | pastCapture
      {depth : Nat}
      {α β : Type}
      {body : Action β}
      {next : β × String → Action α}
      {b : β × String}
      {s t u : State}
      {moment : Option Ask} :
      (textOf body).Gives depth s b t →
      Comes depth (next b) t moment u →
      Comes depth (.capture body next) s moment u
  | enclosed
      {depth : Nat}
      {α β : Type}
      {body : Action β}
      {next : β → Action α}
      {s u : State}
      {moment : Option Ask} :
      Comes depth body s.entered moment u → Comes depth (.inProcedure body next) s moment u
  | pastProcedure
      {depth : Nat}
      {α β : Type}
      {body : Action β}
      {next : β → Action α}
      {b : β}
      {s t u : State}
      {moment : Option Ask} :
      (inProcedure body done).Gives depth s b t →
      Comes depth (next b) t moment u →
      Comes depth (.inProcedure body next) s moment u
  | turn
      {depth : Nat}
      {α β σ : Type}
      {turn : σ → Action (σ ⊕ β)}
      {start x : σ}
      {next : β → Action α}
      {s t u : State}
      {moment : Option Ask} :
      Iterates depth turn start s x t →
      Comes depth (turn x) t moment u →
      Comes depth (.loop turn start next) s moment u
  | pastLoop
      {depth : Nat}
      {α β σ : Type}
      {turn : σ → Action (σ ⊕ β)}
      {start : σ}
      {next : β → Action α}
      {b : β}
      {s t u : State}
      {moment : Option Ask} :
      (turns turn start).Gives depth s b t →
      Comes depth (next b) t moment u →
      Comes depth (.loop turn start next) s moment u
  | rule
      {depth : Nat}
      {α β : Type}
      {rule : Rule β}
      {next : β → Action α}
      {s u : State}
      {moment : Option Ask} :
      Comes depth rule.action s moment u → Comes (depth + 1) (.call rule next) s moment u
  | pastRule
      {depth : Nat}
      {α β : Type}
      {rule : Rule β}
      {next : β → Action α}
      {b : β}
      {s t u : State}
      {moment : Option Ask} :
      (call rule done).Gives depth s b t →
      Comes depth (next b) t moment u →
      Comes depth (.call rule next) s moment u

/-- Every state that a run comes through is that of a moment. -/
theorem Reaches.comes
    {depth : Nat}
    {action : Action α}
    {s u : State}
    (h : action.Reaches depth s u) :
    ∃ moment, action.Comes depth s moment u := by
  induction h with
  | here action s => exact ⟨_, .here action s⟩
  | ask hperform _ ih => exact ih.imp fun _ => .ask hperform
  | captured _ ih => exact ih.imp fun _ => .captured
  | pastCapture hbody _ ih => exact ih.imp fun _ => .pastCapture hbody
  | enclosed _ ih => exact ih.imp fun _ => .enclosed
  | pastProcedure hbody _ ih => exact ih.imp fun _ => .pastProcedure hbody
  | turn hturns _ ih => exact ih.imp fun _ => .turn hturns
  | pastLoop hloop _ ih => exact ih.imp fun _ => .pastLoop hloop
  | rule _ ih => exact ih.imp fun _ => .rule
  | pastRule hrule _ ih => exact ih.imp fun _ => .pastRule hrule

/-- On the way of a run there are no more tokens to come than at its start. -/
theorem Comes.remaining_le
    {depth : Nat}
    {action : Action α}
    {s u : State}
    {moment : Option Ask}
    (h : action.Comes depth s moment u) :
    u.remaining ≤ s.remaining := by
  induction h with
  | here action s => exact Nat.le_refl _
  | ask hperform _ ih =>
    have hgives : Gives 0 (.ask _ done) _ _ _ := (gives_ask _ _).2 hperform
    exact Nat.le_trans ih hgives.remaining_le
  | captured _ ih => exact ih
  | pastCapture hbody _ ih => exact Nat.le_trans ih hbody.remaining_le
  | enclosed _ ih => exact ih
  | pastProcedure hbody _ ih => exact Nat.le_trans ih hbody.remaining_le
  | turn hturns _ ih => exact Nat.le_trans ih hturns.remaining_le
  | pastLoop hloop _ ih => exact Nat.le_trans ih hloop.remaining_le
  | rule _ ih => exact ih
  | pastRule hrule _ ih => exact Nat.le_trans ih hrule.remaining_le

/-- An action behind another one comes to the moments of both. -/
theorem comes_bind
    {depth : Nat} {s u : State} {moment : Option Ask} (x : Action α) (f : α → Action β)
    (h : Comes depth (x >>= f) s moment u) :
    Comes depth x s moment u ∨ ∃ a t, x.Gives depth s a t ∧ Comes depth (f a) t moment u := by
  change Comes depth (x.bind f) s moment u at h
  induction x generalizing s with
  | done a => exact Or.inr ⟨a, s, (gives_pure a a).2 ⟨rfl, rfl⟩, h⟩
  | reject diagnostic =>
    cases h
    exact Or.inl (.here _ _)
  | ask request next ih =>
    cases h with
    | here => exact Or.inl (.here (.ask request next) _)
    | @ask _ _ _ _ _ b _ t _ _ hperform hnext =>
      obtain hleft | ⟨a, v, hgives, hright⟩ := ih b f hnext
      · exact Or.inl (.ask hperform hleft)
      · exact Or.inr ⟨a, v, gives_then_iff.2 ⟨b, t, (gives_ask request b).2 hperform, hgives⟩,
          hright⟩
  | capture body next _ ih =>
    cases h with
    | here => exact Or.inl (.here (.capture body next) _)
    | captured hbody => exact Or.inl (.captured hbody)
    | @pastCapture _ _ _ _ _ b _ t _ _ hbody hnext =>
      obtain hleft | ⟨a, v, hgives, hright⟩ := ih b f hnext
      · exact Or.inl (.pastCapture hbody hleft)
      · exact Or.inr ⟨a, v, gives_then_iff.2 ⟨b, t, hbody, hgives⟩, hright⟩
  | inProcedure body next _ ih =>
    cases h with
    | here => exact Or.inl (.here (.inProcedure body next) _)
    | enclosed hbody => exact Or.inl (.enclosed hbody)
    | @pastProcedure _ _ _ _ _ b _ t _ _ hbody hnext =>
      obtain hleft | ⟨a, v, hgives, hright⟩ := ih b f hnext
      · exact Or.inl (.pastProcedure hbody hleft)
      · exact Or.inr ⟨a, v, gives_then_iff.2 ⟨b, t, hbody, hgives⟩, hright⟩
  | loop turn start next _ ih =>
    cases h with
    | here => exact Or.inl (.here (.loop turn start next) _)
    | turn hturns hturn => exact Or.inl (.turn hturns hturn)
    | @pastLoop _ _ _ _ _ _ _ b _ t _ _ hloop hnext =>
      obtain hleft | ⟨a, v, hgives, hright⟩ := ih b f hnext
      · exact Or.inl (.pastLoop hloop hleft)
      · exact Or.inr ⟨a, v, gives_then_iff.2 ⟨b, t, hloop, hgives⟩, hright⟩
  | call rule next ih =>
    cases h with
    | here => exact Or.inl (.here (.call rule next) _)
    | rule hrule => exact Or.inl (.rule hrule)
    | @pastRule _ _ _ _ _ b _ t _ _ hrule hnext =>
      obtain hleft | ⟨a, v, hgives, hright⟩ := ih b f hnext
      · exact Or.inl (.pastRule hrule hleft)
      · exact Or.inr ⟨a, v, gives_then_iff.2 ⟨b, t, hrule, hgives⟩, hright⟩

/-- With at most `depth` rules inside each other, `action` performed in `s` halts in `t`. -/
def Halts (depth : Nat) (action : Action α) (s : State) (halt : Halt) (t : State) : Prop :=
  action.run (Rule.run depth) s = .error halt t

end Action

/-- An action that halts keeps what every action keeps. -/
theorem Kept.halts
    {R : State → State → Prop}
    (h : Kept R)
    {depth : Nat}
    {action : Action α}
    {s t : State}
    {halt : Halt}
    (hhalts : action.Halts depth s halt t) :
    R s t := by
  have hrun := h.run (h.rule depth) action s
  rw [show action.run (Rule.run depth) s = .error halt t from hhalts] at hrun
  exact hrun

/-- A bind halts in its first half, or in its second half behind the end of the first. -/
theorem Effect.bind_eq_error_iff
    (x : Effect α)
    (f : α → Effect β)
    (s t : State)
    (halt : Halt) :
    (x >>= f) s = .error halt t ↔
      x s = .error halt t ∨ ∃ a u, x s = .ok a u ∧ f a u = .error halt t := by
  change EStateM.bind x f s = .error halt t ↔ _
  unfold EStateM.bind
  cases x s with
  | ok a u => simp
  | error halt u => simp

namespace Action

variable {depth : Nat} {s t : State} {halt : Halt}

theorem halts_bind_iff (x : Action α) (f : α → Action β) :
    Halts depth (x >>= f) s halt t ↔
      x.Halts depth s halt t ∨ ∃ a u, x.Gives depth s a u ∧ (f a).Halts depth u halt t := by
  unfold Halts
  rw [run_bind]
  exact Effect.bind_eq_error_iff ..

/-- Behind what has succeeded, the rest halts. -/
theorem Gives.halts_bind
    {x : Action α}
    {f : α → Action β}
    {a : α}
    {u : State}
    (hx : x.Gives depth s a u)
    (hf : (f a).Halts depth u halt t) :
    Halts depth (x >>= f) s halt t :=
  (halts_bind_iff x f).2 (Or.inr ⟨a, u, hx, hf⟩)

theorem halts_ask_iff (request : Request α) :
    Halts depth (ask request done) s halt t ↔ request.perform s = .error halt t := by
  unfold Halts
  simp only [run]
  rw [Effect.bind_eq_error_iff]
  constructor
  · rintro (h | ⟨a, u, -, hdone⟩)
    · exact h
    · cases hdone
  · exact Or.inl

theorem halts_call_iff (rule : Rule α) :
    Halts (depth + 1) (call rule done) s halt t ↔ Halts depth rule.action s halt t := by
  unfold Halts
  simp only [run]
  rw [Effect.bind_eq_error_iff]
  constructor
  · rintro (h | ⟨a, u, -, hdone⟩)
    · exact h
    · cases hdone
  · exact Or.inl

theorem halts_textOf_iff (body : Action α) :
    Halts depth (textOf body) s halt t ↔
      ∃ u, Halts depth body { s with output := s.output.openCapture } halt u ∧
        t = { u with output := u.output.closeCapture } := by
  unfold Halts textOf
  simp only [run]
  rw [Effect.bind_eq_error_iff]
  unfold captured
  constructor
  · rintro (h | ⟨a, u, -, hdone⟩)
    · split at h
      · cases h
      · rename_i u hu
        cases h
        exact ⟨u, hu, rfl⟩
    · cases hdone
  · rintro ⟨u, hu, rfl⟩
    rw [hu]
    exact Or.inl rfl

/-- A procedure scope halts where its body does, or where it cannot be left. -/
theorem halts_inProcedure
    {body : Action α} (h : Halts depth (inProcedure body done) s halt t) :
    (∃ a u, Gives depth body s.entered a u ∧ leave s.symbols.mark s.scope.floor u = .error halt t) ∨
    ∃ inner u,
      Halts depth body s.entered inner u ∧
      ((∃ a, leave s.symbols.mark s.scope.floor u = .ok a t ∧ halt = inner) ∨
        leave s.symbols.mark s.scope.floor u = .error halt t) := by
  unfold Halts at h
  simp only [run] at h
  rw [Effect.bind_eq_error_iff] at h
  obtain h | ⟨a, u, -, hdone⟩ := h
  · unfold enclosed at h
    split at h
    · rename_i a u hu
      split at h
      · cases h
      · rename_i hleave
        cases h
        exact Or.inl ⟨a, u, hu, hleave⟩
    · rename_i inner u hu
      split at h
      · rename_i a v hleave
        cases h
        exact Or.inr ⟨_, u, hu, Or.inl ⟨a, hleave, rfl⟩⟩
      · rename_i hleave
        cases h
        exact Or.inr ⟨_, u, hu, Or.inr hleave⟩
  · cases hdone

end Action

/-! ### Terms -/

open Oberon.Compilation.Action

/-- What is demanded of a run: of its moments, and of the state in which it halts. -/
structure Terms where
  moment : Option Ask → State → Prop
  halt : Halt → State → Prop

/--
From a state with `P` the action comes to moments that the terms allow; it halts as the terms allow,
or ends with a result and in a state that have `Q`.
-/
structure Honors
    (terms : Terms)
    (depth : Nat)
    (P : State → Prop)
    (action : Action α)
    (Q : α → State → Prop) :
    Prop where
  comes : ∀ {s u : State} {moment : Option Ask}, P s → action.Comes depth s moment u →
    terms.moment moment u
  gives : ∀ {s t : State} {a : α}, P s → action.Gives depth s a t → Q a t
  halts : ∀ {s t : State} {halt : Halt}, P s → action.Halts depth s halt t → terms.halt halt t

namespace Honors

variable {terms : Terms} {depth : Nat} {P : State → Prop}

theorem bind
    {x : Action α}
    {f : α → Action β}
    {R : α → State → Prop}
    {Q : β → State → Prop}
    (hx : Honors terms depth P x R)
    (hf : ∀ a, Honors terms depth (R a) (f a) Q) :
    Honors terms depth P (x >>= f) Q where
  comes hs h := by
    obtain h | ⟨a, t, hgives, h⟩ := comes_bind x f h
    · exact hx.comes hs h
    · exact (hf a).comes (hx.gives hs hgives) h
  gives hs h := by
    obtain ⟨a, u, hgives, h⟩ := (gives_bind x f _).1 h
    exact (hf a).gives (hx.gives hs hgives) h
  halts hs h := by
    obtain h | ⟨a, u, hgives, h⟩ := (halts_bind_iff x f).1 h
    · exact hx.halts hs h
    · exact (hf a).halts (hx.gives hs hgives) h

/-- The start may be known better and the end less well. -/
theorem weaken
    {action : Action α}
    {P' : State → Prop}
    {Q Q' : α → State → Prop}
    (h : Honors terms depth P action Q)
    (hP : ∀ s, P' s → P s)
    (hQ : ∀ a t, Q a t → Q' a t) :
    Honors terms depth P' action Q' where
  comes hs := h.comes (hP _ hs)
  gives hs hgives := hQ _ _ (h.gives (hP _ hs) hgives)
  halts hs := h.halts (hP _ hs)

/-- What holds of every single start holds of all of them. -/
theorem of_each
    {action : Action α}
    {Q : α → State → Prop}
    (h : ∀ s, P s → Honors terms depth (fun u => u = s) action Q) :
    Honors terms depth P action Q where
  comes hs := (h _ hs).comes rfl
  gives hs := (h _ hs).gives rfl
  halts hs := (h _ hs).halts rfl

/-- A fact that does not depend on the state may be taken for granted. -/
theorem given
    {action : Action α} {φ : Prop} {Q : α → State → Prop} (h : φ → Honors terms depth P action Q) :
    Honors terms depth (fun s => φ ∧ P s) action Q where
  comes hs := (h hs.1).comes hs.2
  gives hs := (h hs.1).gives hs.2
  halts hs := (h hs.1).halts hs.2

/-- So may a fact that holds in every start. -/
theorem assume
    {action : Action α}
    {φ : Prop}
    {Q : α → State → Prop}
    (hφ : ∀ s, P s → φ)
    (h : φ → Honors terms depth P action Q) :
    Honors terms depth P action Q where
  comes hs := (h (hφ _ hs)).comes hs
  gives hs := (h (hφ _ hs)).gives hs
  halts hs := (h (hφ _ hs)).halts hs

theorem of_exists
    {ι : Type}
    {P : ι → State → Prop}
    {action : Action α}
    {Q : α → State → Prop}
    (h : ∀ i, Honors terms depth (P i) action Q) :
    Honors terms depth (fun s => ∃ i, P i s) action Q where
  comes := fun ⟨i, hs⟩ => (h i).comes hs
  gives := fun ⟨i, hs⟩ => (h i).gives hs
  halts := fun ⟨i, hs⟩ => (h i).halts hs

/-- What is known of a success may be added to what is shown of it. -/
theorem also
    {action : Action α}
    {Q R : α → State → Prop}
    (h : Honors terms depth P action Q)
    (hR : ∀ s t a, P s → action.Gives depth s a t → R a t) :
    Honors terms depth P action fun a t => R a t ∧ Q a t where
  comes := h.comes
  gives hs hgives := ⟨hR _ _ _ hs hgives, h.gives hs hgives⟩
  halts := h.halts

/-- Looser terms are honored as well. -/
theorem loosen
    {action : Action α}
    {looser : Terms}
    {Q : α → State → Prop}
    (h : Honors terms depth P action Q)
    (hmoment : ∀ moment s, terms.moment moment s → looser.moment moment s)
    (hhalt : ∀ halt s, terms.halt halt s → looser.halt halt s) :
    Honors looser depth P action Q where
  comes hs hcomes := hmoment _ _ (h.comes hs hcomes)
  gives := h.gives
  halts hs hhalts := hhalt _ _ (h.halts hs hhalts)

theorem pure
    {Q : α → State → Prop}
    {a : α}
    (hmoment : ∀ s, P s → terms.moment none s)
    (hQ : ∀ s, P s → Q a s) :
    Honors terms depth P (Pure.pure a) Q where
  comes hs h := by
    cases h
    exact hmoment _ hs
  gives hs h := by
    obtain ⟨rfl, rfl⟩ := (gives_pure _ _).1 h
    exact hQ _ hs
  halts _ h := by cases h

theorem reject
    {Q : α → State → Prop}
    {diagnostic : Diagnostic}
    (hmoment : ∀ s, P s → terms.moment none s)
    (hhalt : ∀ s, P s → terms.halt (.rejected diagnostic) s) :
    Honors terms depth P (Action.reject diagnostic) Q where
  comes hs h := by
    cases h
    exact hmoment _ hs
  gives _ h := absurd h (gives_reject diagnostic _)
  halts hs h := by
    cases h
    exact hhalt _ hs

theorem ite
    {p : Prop}
    [Decidable p]
    {x y : Action α}
    {Q : α → State → Prop}
    (hx : p → Honors terms depth P x Q)
    (hy : ¬ p → Honors terms depth P y Q) :
    Honors terms depth P (if p then x else y) Q := by
  split
  · exact hx ‹_›
  · exact hy ‹_›

theorem ask
    {request : Request α}
    {Q : α → State → Prop}
    (hmoment : ∀ s, P s → terms.moment (some ⟨α, request⟩) s)
    (hgives : ∀ s t a, P s → request.perform s = .ok a t → terms.moment none t ∧ Q a t)
    (hhalt : ∀ s t halt, P s → request.perform s = .error halt t → terms.halt halt t) :
    Honors terms depth P (Action.ask request done) Q where
  comes hs h := by
    cases h with
    | here => exact hmoment _ hs
    | ask hperform hnext =>
      cases hnext
      exact (hgives _ _ _ hs hperform).1
  gives hs h := (hgives _ _ _ hs ((gives_ask request _).1 h)).2
  halts hs h := hhalt _ _ _ hs ((halts_ask_iff request).1 h)

theorem discard
    {action : Action α}
    {Q : α → State → Prop}
    {R : State → Prop}
    (h : Honors terms depth P action Q)
    (hmoment : ∀ a s, Q a s → terms.moment none s)
    (hR : ∀ a s, Q a s → R s) :
    Honors terms depth P (discard action) fun _ => R := by
  change Honors terms depth P ((fun _ => ()) <$> action) _
  rw [← bind_pure_comp]
  exact h.bind fun a => .pure (hmoment a) (hR a)

theorem textOf
    {body : Action α}
    {P' : State → Prop}
    {Q : α → State → Prop}
    {R : α × String → State → Prop}
    (h : Honors terms depth P' body Q)
    (hopen : ∀ s, P s → terms.moment none s ∧ P' { s with output := s.output.openCapture })
    (hclose : ∀ a t, Q a t →
      terms.moment none { t with output := t.output.closeCapture } ∧
      R (a, t.output.captured) { t with output := t.output.closeCapture })
    (hhalt : ∀ halt t, terms.halt halt t →
      terms.halt halt { t with output := t.output.closeCapture }) :
    Honors terms depth P (textOf body) R := by
  have hgives : ∀ {s t : State} {result : α × String}, P s →
        (Action.textOf body).Gives depth s result t →
      terms.moment none t ∧ R result t := by
    intro s t result hs hgives
    obtain ⟨u, hbody, htext, rfl⟩ := (gives_textOf body result).1 hgives
    have hresult : result = (result.1, u.output.captured) := Prod.ext rfl htext
    rw [hresult]
    exact hclose _ _ (h.gives (hopen s hs).2 hbody)
  refine ⟨?_, fun hs h => (hgives hs h).2, ?_⟩
  · intro s u moment hs hcomes
    cases hcomes with
    | here => exact (hopen s hs).1
    | captured hbody => exact h.comes (hopen s hs).2 hbody
    | pastCapture hbody hnext =>
      cases hnext
      exact (hgives hs hbody).1
  · intro s t halt hs hhalts
    obtain ⟨u, hbody, rfl⟩ := (halts_textOf_iff body).1 hhalts
    exact hhalt _ _ (h.halts (hopen s hs).2 hbody)

/--
A procedure scope honors terms if its body honors some `inner` terms that allow less, and if the
scope can be left behind the body and behind each of its halts.
-/
theorem inProcedure
    {body : Action α}
    {Q : α → State → Prop}
    {inner : State → Terms}
    {R : State → α → State → Prop}
    (hstart : ∀ s, P s → terms.moment none s)
    (hbody : ∀ s, P s → Honors (inner s) depth (fun u => u = s.entered) body (R s))
    (hmoment : ∀ s moment u, P s → (inner s).moment moment u → terms.moment moment u)
    (hleave : ∀ s t a, P s → R s a t →
      ∃ symbols,
        t.symbols.release s.symbols.mark = .ok () symbols ∧
        terms.moment none { t with symbols, scope := .ofModule s.scope.floor } ∧
        Q a { t with symbols, scope := .ofModule s.scope.floor })
    (hhalt : ∀ s t halt, P s → (inner s).halt halt t →
      ∃ symbols,
        t.symbols.release s.symbols.mark = .ok () symbols ∧
        terms.halt halt { t with symbols, scope := .ofModule s.scope.floor }) :
    Honors terms depth P (Action.inProcedure body done) Q := by
  have hgives : ∀ {s t : State} {a : α}, P s → (Action.inProcedure body done).Gives depth s a t →
      terms.moment none t ∧ Q a t := by
    intro s t a hs hgives
    obtain ⟨u, symbols, hinside, hrelease, rfl⟩ := (gives_inProcedure body a).1 hgives
    obtain ⟨_, hrelease', hend⟩ := hleave s u a hs ((hbody s hs).gives rfl hinside)
    rw [hrelease] at hrelease'
    cases hrelease'
    exact hend
  refine ⟨?_, fun hs h => (hgives hs h).2, ?_⟩
  · intro s u moment hs hcomes
    cases hcomes with
    | here => exact hstart s hs
    | enclosed hinside => exact hmoment s _ _ hs ((hbody s hs).comes rfl hinside)
    | pastProcedure hpast hnext =>
      cases hnext
      exact (hgives hs hpast).1
  · intro s t halt hs hhalts
    obtain ⟨a, u, hgives, hleft⟩ | ⟨inner', u, hinside, hleft⟩ := halts_inProcedure hhalts
    · -- A body that succeeds can be left.
      obtain ⟨symbols, hrelease, -⟩ := hleave s u a hs ((hbody s hs).gives rfl hgives)
      simp [leave, hrelease] at hleft
    · obtain ⟨symbols, hrelease, hend⟩ := hhalt s u inner' hs ((hbody s hs).halts rfl hinside)
      obtain ⟨_, hleft, rfl⟩ | hleft := hleft
      · simp only [leave, hrelease] at hleft
        cases hleft
        exact hend
      · simp [leave, hrelease] at hleft

/--
A loop honors terms if each of its turns does, from what holds of the value and the state that it
starts with.
-/
theorem turns
    {turn : σ → Action (σ ⊕ β)}
    {start : σ}
    {R : σ → State → Prop}
    {Q : β → State → Prop}
    (hturn : ∀ x, Honors terms depth (R x) (turn x) (Sum.elim R Q))
    (hmoment : ∀ s, R start s → terms.moment none s)
    (hend : ∀ b s, Q b s → terms.moment none s)
    (hexhausted : ∀ x s, R x s → terms.halt .exhausted s) :
    Honors terms depth (R start) (turns turn start) Q := by
  have hiterates : ∀ {x y : σ} {s t : State}, R x s → Iterates depth turn x s y t → R y t := by
    intro x y s t hs h
    induction h with
    | refl x s => exact hs
    | step hgives _ ih => exact ih ((hturn _).gives hs hgives)
  have hiterate : ∀ (count : Nat) {x : σ} {s t : State} {b : β}, R x s →
      iterate (fun x => (turn x).run (Rule.run depth)) count x s = .ok b t → Q b t := by
    intro count
    induction count with
    | zero =>
      intro x s t b _ h
      cases h
    | succ count ih =>
      intro x s t b hs h
      obtain ⟨next, u, hgives, h⟩ := (Effect.bind_eq_ok_iff ..).1 h
      have hu := (hturn x).gives hs hgives
      cases next with
      | inl y => exact ih hu h
      | inr b =>
        cases h
        exact hu
  have hhalts : ∀ (count : Nat) {x : σ} {s t : State} {halt : Halt}, R x s →
      iterate (fun x => (turn x).run (Rule.run depth)) count x s = .error halt t →
        terms.halt halt t := by
    intro count
    induction count with
    | zero =>
      intro x s t halt hs h
      cases h
      exact hexhausted x _ hs
    | succ count ih =>
      intro x s t halt hs h
      obtain h | ⟨next, u, hgives, h⟩ := (Effect.bind_eq_error_iff ..).1 h
      · exact (hturn x).halts hs h
      · have hu := (hturn x).gives hs hgives
        cases next with
        | inl y => exact ih hu h
        | inr b => cases h
  have hgives : ∀ {s t : State} {b : β}, R start s →
      (Action.turns turn start).Gives depth s b t → Q b t := by
    intro s t b hs h
    obtain ⟨c, u, hloop, hdone⟩ := (Effect.bind_eq_ok_iff ..).1 h
    cases hdone
    exact hiterate _ hs hloop
  refine ⟨?_, hgives, ?_⟩
  · intro s u moment hs hcomes
    cases hcomes with
    | here => exact hmoment _ hs
    | turn hturns hinside => exact (hturn _).comes (hiterates hs hturns) hinside
    | pastLoop hloop hnext =>
      cases hnext
      exact hend _ _ (hgives hs hloop)
  · intro s t halt hs h
    obtain h | ⟨c, u, -, hdone⟩ := (Effect.bind_eq_error_iff ..).1 h
    · exact hhalts _ hs h
    · cases hdone

theorem repeatWhile
    {more : Action Bool}
    {body : Action Unit}
    (hmore : Honors terms depth P more fun _ => P)
    (hbody : Honors terms depth P body fun _ => P)
    (hmoment : ∀ s, P s → terms.moment none s)
    (hexhausted : ∀ s, P s → terms.halt .exhausted s) :
    Honors terms depth P (repeatWhile more body) fun _ => P := by
  refine .turns (R := fun _ => P) (fun _ => hmore.bind fun again => .ite (fun _ => ?_) fun _ => ?_)
    hmoment (fun _ => hmoment)
    fun _ => hexhausted
  · exact hbody.bind fun _ => .pure hmoment fun _ hs => hs
  · exact .pure hmoment fun _ hs => hs

/-- The items of a list, newest first, as far as they have been read. -/
theorem separated
    {item : Action α}
    {more : Action Bool}
    {R : List α → State → Prop}
    (hitem : ∀ items, Honors terms depth (R items) item fun a => R (a :: items))
    (hmore : ∀ items, Honors terms depth (R items) more fun _ => R items)
    (hmoment : ∀ items s, R items s → terms.moment none s)
    (hexhausted : ∀ items s, R items s → terms.halt .exhausted s) :
    Honors terms depth (R []) (separated item more) fun items => R items.reverse := by
  refine .turns (fun items => (hitem items).bind fun a => (hmore _).bind fun again => .ite
    (fun _ => ?_) fun _ => ?_)
    (hmoment []) (fun items => hmoment items.reverse) hexhausted
  · exact .pure (hmoment _) fun _ hs => hs
  · exact .pure (hmoment _) fun _ hs => by simpa using hs

theorem forM
    {f : α → Action Unit}
    {items : List α}
    (hitem : ∀ a ∈ items, Honors terms depth P (f a) fun _ => P)
    (hmoment : ∀ s, P s → terms.moment none s) :
    Honors terms depth P (items.forM f) fun _ => P := by
  induction items with
  | nil => exact .pure hmoment fun _ hs => hs
  | cons a items ih =>
    exact (hitem a List.mem_cons_self).bind fun _ => ih fun b hb =>
      hitem b (List.mem_cons_of_mem a hb)

theorem mapM
    {f : α → Action β}
    {items : List α}
    (hitem : ∀ a ∈ items, Honors terms depth P (f a) fun _ => P)
    (hmoment : ∀ s, P s → terms.moment none s) :
    Honors terms depth P (items.mapM f) fun _ => P := by
  induction items with
  | nil => exact .pure hmoment fun _ hs => hs
  | cons a items ih =>
    rw [List.mapM_cons]
    refine (hitem a List.mem_cons_self).bind fun _ => ?_
    exact (ih fun b hb => hitem b (List.mem_cons_of_mem a hb)).bind fun _ =>
      .pure hmoment fun _ hs => hs

theorem call_zero
    {rule : Rule α} {Q : α → State → Prop} (hmoment : ∀ s, P s → terms.moment none s)
    (hexhausted : ∀ s, P s → terms.halt .exhausted s) : Honors terms 0 P (call rule done) Q where
  comes hs h := by
    cases h with
    | here => exact hmoment _ hs
    | pastRule hrule _ => exact absurd hrule (not_gives_call_zero rule _)
  gives _ h := absurd h (not_gives_call_zero rule _)
  halts hs h := by
    cases h
    exact hexhausted _ hs

theorem call_succ
    {rule : Rule α} {Q : α → State → Prop} (hmoment : ∀ s, P s → terms.moment none s)
    (hend : ∀ a s, Q a s → terms.moment none s) (h : Honors terms depth P rule.action Q) :
    Honors terms (depth + 1) P (call rule done) Q where
  comes hs hcomes := by
    cases hcomes with
    | here => exact hmoment _ hs
    | rule hrule => exact h.comes hs hrule
    | pastRule hrule hnext =>
      cases hnext
      exact hend _ _ (h.gives hs ((gives_call rule _).1 hrule))
  gives hs hgives := h.gives hs ((gives_call rule _).1 hgives)
  halts hs hhalts := h.halts hs ((halts_call_iff rule).1 hhalts)

end Honors

/-! ### Relations kept at moments -/

/--
A relation between states that everything an action is put together from keeps at the moments that
`M` allows.
-/
structure KeptAt (M : Option Ask → State → Prop) (R : State → State → Prop) : Prop where
  refl : ∀ s, R s s
  trans : ∀ {s t u}, R s t → R t u → R s u
  request : ∀ {β : Type} (request : Request β) (s : State), M (some ⟨β, request⟩) s →
    R s (endState (request.perform s))
  capture : ∀ s t : State, R { s with output := s.output.openCapture } t →
    R s { t with output := t.output.closeCapture }
  procedure : ∀ s t : State, M none s → R s.entered t →
    R s (endState (Action.leave s.symbols.mark s.scope.floor t))

namespace KeptAt

variable {M : Option Ask → State → Prop} {R : State → State → Prop}

/-- An action all of whose moments are allowed keeps the relation, if the rules do. -/
theorem of_rules
    (h : KeptAt M R) {depth : Nat}
    (hrules : ∀ {β : Type} (rule : Rule β) (s : State),
      (∀ less moment u, depth = less + 1 → rule.action.Comes less s moment u → M moment u) →
        R s (endState (Rule.run depth rule s)))
    (action : Action α) (s : State) (hs : ∀ moment u, action.Comes depth s moment u → M moment u) :
    R s (endState (action.run (Rule.run depth) s)) := by
  induction action generalizing s with
  | done a => exact h.refl s
  | reject diagnostic => exact h.refl s
  | ask request next ih =>
    refine related_bind h.trans (h.request request s (hs _ _ (.here _ s))) fun b t hb => ?_
    exact ih b t fun moment u hu => hs moment u (.ask hb hu)
  | capture body next hbody ih =>
    have hcaptured :=
      related_captured (h.capture s) (hbody _ fun moment u hu => hs moment u (.captured hu))
    refine related_bind h.trans hcaptured fun b t hb => ?_
    have hgives : (textOf body).Gives depth s b t := (Effect.bind_eq_ok_iff ..).2 ⟨b, t, hb, rfl⟩
    exact ih b t fun moment u hu => hs moment u (.pastCapture hgives hu)
  | inProcedure body next hbody ih =>
    have henclosed : R s (endState (enclosed (body.run (Rule.run depth)) s)) := by
      rw [endState_enclosed]
      exact h.procedure s _ (hs _ _ (.here _ s)) (hbody _
        fun moment u hu => hs moment u (.enclosed hu))
    refine related_bind h.trans henclosed fun b t hb => ?_
    have hgives : (inProcedure body done).Gives depth s b t :=
      (Effect.bind_eq_ok_iff ..).2 ⟨b, t, hb, rfl⟩
    exact ih b t fun moment u hu => hs moment u (.pastProcedure hgives hu)
  | loop turn start next hturn ih =>
    have hloop := related_iterate h.refl h.trans (fun x t => Iterates depth turn start s x t)
      (fun x t ht => hturn x t fun moment u hu => hs moment u (.turn ht hu))
        (fun x y t u ht hnext => ht.snoc hnext)
      (s.remaining + 1) start s (.refl start s)
    refine related_bind h.trans hloop fun b t hb => ?_
    have hgives : (turns turn start).Gives depth s b t :=
      (Effect.bind_eq_ok_iff ..).2 ⟨b, t, hb, rfl⟩
    exact ih b t fun moment u hu => hs moment u (.pastLoop hgives hu)
  | call rule next ih =>
    have hrule : R s (endState (Rule.run depth rule s)) := by
      refine hrules rule s fun less moment u hless hu => ?_
      subst hless
      exact hs moment u (.rule hu)
    refine related_bind h.trans hrule fun b t hb => ?_
    have hgives : (call rule done).Gives depth s b t := (Effect.bind_eq_ok_iff ..).2 ⟨b, t, hb, rfl⟩
    exact ih b t fun moment u hu => hs moment u (.pastRule hgives hu)

/-- An action all of whose moments are allowed keeps the relation, whether it succeeds or halts. -/
theorem run
    (h : KeptAt M R)
    (depth : Nat)
    (action : Action α)
    (s : State)
    (hs : ∀ moment u, action.Comes depth s moment u → M moment u) :
    R s (endState (action.run (Rule.run depth) s)) := by
  induction depth generalizing α s with
  | zero =>
    refine h.of_rules (fun rule s _ => ?_) action s hs
    exact show R s (endState (.error .exhausted s)) from h.refl s
  | succ depth ih =>
    refine h.of_rules (fun rule s hrule => ?_) action s hs
    exact ih rule.action s fun moment u hu => hrule depth moment u rfl hu

end KeptAt

end Compilation
end Oberon
