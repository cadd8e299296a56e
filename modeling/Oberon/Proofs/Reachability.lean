import Oberon.Proofs.Progress

/-!
# Reachable states

`Action.Reaches` says that performing an action comes through a state: the state in which the action
starts, and the state behind every request that it makes on its way.

**Depth.**  What succeeds with some room for rules inside each other succeeds in the same way with
more (`Gives.deeper`).

**Records.**  `Action.recorded` lists what is noted at each request of a run.  The states of the
requests are among those that the action comes through (`reaches_of_mem_visited`).

**Requests.**  `Action.Uses` says that an action makes allowed requests only, whatever it is
answered, and rejects for reasons of the grammar only.

**Invariants.**  `Keeps I` says that an action started in a state with the invariant `I` comes
through such states only, ends in one, and gives a result with some property.  It is shown for an
action from its parts (`Keeps.bind`, `Keeps.turns`), or from the requests it makes
(`Invariant.keeps`).
-/

namespace Oberon

/--
A reason that the rules of the grammar give, not the scanner and not the limits of a symbol table.
-/
class Diagnostic.OfRules (diagnostic : Diagnostic) : Prop where
  ne_scan : ∀ error, diagnostic ≠ .scan error
  ne_limit : ∀ error, diagnostic ≠ .limit error

namespace Diagnostic

instance (kind : Token.Kind) (found : String) : OfRules (.expected kind found) := ⟨nofun, nofun⟩

instance (found : String) : OfRules (.identifierExpected found) := ⟨nofun, nofun⟩

instance (name : String) : OfRules (.duplicate name) := ⟨nofun, nofun⟩

instance (name : String) : OfRules (.undeclared name) := ⟨nofun, nofun⟩

instance (name : String) : OfRules (.misplaced name) := ⟨nofun, nofun⟩

instance (name : String) : OfRules (.notAssignable name) := ⟨nofun, nofun⟩

instance (found : String) : OfRules (.factorExpected found) := ⟨nofun, nofun⟩

instance (found : String) : OfRules (.statementExpected found) := ⟨nofun, nofun⟩

instance (found : String) : OfRules (.typeExpected found) := ⟨nofun, nofun⟩

instance : OfRules .arraySizeExpected := ⟨nofun, nofun⟩

instance : OfRules .constantExpected := ⟨nofun, nofun⟩

instance : OfRules .varParameter := ⟨nofun, nofun⟩

instance : OfRules .nestedArray := ⟨nofun, nofun⟩

instance (name : String) : OfRules (.exportedLocal name) := ⟨nofun, nofun⟩

instance (wanted found : String) : OfRules (.closingName wanted found) := ⟨nofun, nofun⟩

instance (name : String) (wanted found : Nat) :
    OfRules (.argumentCount name wanted found) :=
  ⟨nofun, nofun⟩

instance (error : TypeError) : OfRules (.type error) := ⟨nofun, nofun⟩

end Diagnostic

namespace Compilation

variable {α β σ : Type}

namespace Action

/-- Turns of a loop lead from one value and state to others, and the loop goes on. -/
inductive Iterates (depth : Nat) (turn : σ → Action (σ ⊕ β)) : σ → State → σ → State → Prop
  | refl (x : σ) (s : State) : Iterates depth turn x s x s
  | step {x y z : σ} {s t u : State} :
      (turn x).Gives depth s (.inl y) t → Iterates depth turn y t z u → Iterates depth turn x s z u

theorem Iterates.snoc
    {depth : Nat}
    {turn : σ → Action (σ ⊕ β)}
    {x y z : σ}
    {s t u : State}
    (h : Iterates depth turn x s y t)
    (hturn : (turn y).Gives depth t (.inl z) u) :
    Iterates depth turn x s z u := by
  induction h with
  | refl x s => exact .step hturn (.refl _ _)
  | step hgives _ ih => exact .step hgives (ih hturn)

theorem Iterates.remaining_le
    {depth : Nat}
    {turn : σ → Action (σ ⊕ β)}
    {x y : σ}
    {s t : State}
    (h : Iterates depth turn x s y t) :
    t.remaining ≤ s.remaining := by
  induction h with
  | refl x s => exact Nat.le_refl _
  | step hgives _ ih => exact Nat.le_trans ih hgives.remaining_le

/--
With at most `depth` rules inside each other, performing `action` in `s` comes through `u`.
-/
inductive Reaches : Nat → {α : Type} → Action α → State → State → Prop
  | here {depth : Nat} {α : Type} (action : Action α) (s : State) : Reaches depth action s s
  | ask
      {depth : Nat}
      {α β : Type}
      {request : Request β}
      {next : β → Action α}
      {b : β}
      {s t u : State} :
      request.perform s = .ok b t →
      Reaches depth (next b) t u →
      Reaches depth (.ask request next) s u
  | captured
      {depth : Nat}
      {α β : Type}
      {body : Action β}
      {next : β × String → Action α}
      {s u : State} :
      Reaches depth body { s with output := s.output.openCapture } u →
      Reaches depth (.capture body next) s u
  | pastCapture
      {depth : Nat}
      {α β : Type}
      {body : Action β}
      {next : β × String → Action α}
      {b : β × String}
      {s t u : State} :
      (textOf body).Gives depth s b t →
      Reaches depth (next b) t u →
      Reaches depth (.capture body next) s u
  | enclosed {depth : Nat} {α β : Type} {body : Action β} {next : β → Action α} {s u : State} :
      Reaches depth body s.entered u →
        Reaches depth (.inProcedure body next) s u
  | pastProcedure
      {depth : Nat}
      {α β : Type}
      {body : Action β}
      {next : β → Action α}
      {b : β}
      {s t u : State} :
      (inProcedure body done).Gives depth s b t →
      Reaches depth (next b) t u →
      Reaches depth (.inProcedure body next) s u
  | turn
      {depth : Nat}
      {α β σ : Type}
      {turn : σ → Action (σ ⊕ β)}
      {start x : σ}
      {next : β → Action α}
      {s t u : State} :
      Iterates depth turn start s x t →
      Reaches depth (turn x) t u →
      Reaches depth (.loop turn start next) s u
  | pastLoop
      {depth : Nat}
      {α β σ : Type}
      {turn : σ → Action (σ ⊕ β)}
      {start : σ}
      {next : β → Action α}
      {b : β}
      {s t u : State} :
      (turns turn start).Gives depth s b t →
      Reaches depth (next b) t u →
      Reaches depth (.loop turn start next) s u
  | rule {depth : Nat} {α β : Type} {rule : Rule β} {next : β → Action α} {s u : State} :
      Reaches depth rule.action s u → Reaches (depth + 1) (.call rule next) s u
  | pastRule
      {depth : Nat}
      {α β : Type}
      {rule : Rule β}
      {next : β → Action α}
      {b : β}
      {s t u : State} :
      (call rule done).Gives depth s b t →
      Reaches depth (next b) t u →
      Reaches depth (.call rule next) s u

/--
A form of action with a continuation succeeds as the form does and the continuation behind it.
-/
theorem gives_then_iff
    {depth : Nat} {s t : State} {x : Action β} {next : β → Action α} {a : α} :
    (x.bind next).Gives depth s a t ↔ ∃ b u, x.Gives depth s b u ∧ (next b).Gives depth u a t :=
  gives_bind x next a

/-! ### Depth -/

section Depth

variable {depth more : Nat}

theorem gives_turns_of_turn
    {turn : σ → Action (σ ⊕ β)}
    (hturn : ∀ x {s t : State} {next : σ ⊕ β}, (turn x).Gives depth s next t →
      (turn x).Gives more s next t)
    {start : σ}
    {s t : State}
    {b : β}
    (h : (turns turn start).Gives depth s b t) :
    (turns turn start).Gives more s b t := by
  have hiterate : ∀ (count : Nat) (x : σ) (s : State),
        iterate (fun x => (turn x).run (Rule.run depth)) count x s = .ok b t →
      iterate (fun x => (turn x).run (Rule.run more)) count x s = .ok b t := by
    intro count
    induction count with
    | zero =>
      intro x s h
      cases h
    | succ count ih =>
      intro x s h
      obtain ⟨next, u, hnext, h⟩ := (Effect.bind_eq_ok_iff ..).1 h
      refine (Effect.bind_eq_ok_iff ..).2 ⟨next, u, hturn x hnext, ?_⟩
      cases next with
      | inl y => exact ih y u h
      | inr c => exact h
  obtain ⟨c, u, hloop, hdone⟩ := (Effect.bind_eq_ok_iff ..).1 h
  cases hdone
  exact (Effect.bind_eq_ok_iff ..).2 ⟨_, _, hiterate _ start s hloop, rfl⟩

/-- An action succeeds in the same way if the rules that it calls do. -/
theorem Gives.of_rules
    (hrules : ∀ {β : Type} (rule : Rule β) (s t : State) (b : β),
      (call rule done).Gives depth s b t → (call rule done).Gives more s b t)
    {action : Action α}
    {s t : State}
    {a : α}
    (h : action.Gives depth s a t) :
    action.Gives more s a t := by
  induction action generalizing s t with
  | done b => exact h
  | reject diagnostic => exact absurd h (gives_reject diagnostic a)
  | ask request next ih =>
    obtain ⟨b, u, hask, hnext⟩ := (gives_then_iff (x := ask request done)).1 h
    exact gives_then_iff.2 ⟨b, u, (gives_ask request b).2 ((gives_ask request b).1 hask),
      ih b hnext⟩
  | capture body next hbody ih =>
    obtain ⟨b, u, hcapture, hnext⟩ := (gives_then_iff (x := textOf body)).1 h
    obtain ⟨v, hinside, htext, hclose⟩ := (gives_textOf body b).1 hcapture
    exact gives_then_iff.2 ⟨b, u, (gives_textOf body b).2 ⟨v, hbody hinside, htext, hclose⟩,
      ih b hnext⟩
  | inProcedure body next hbody ih =>
    obtain ⟨b, u, hprocedure, hnext⟩ := (gives_then_iff (x := inProcedure body done)).1 h
    obtain ⟨v, symbols, hinside, hleave⟩ := (gives_inProcedure body b).1 hprocedure
    exact gives_then_iff.2 ⟨b, u, (gives_inProcedure body b).2 ⟨v, symbols, hbody hinside, hleave⟩,
      ih b hnext⟩
  | loop turn start next hturn ih =>
    obtain ⟨b, u, hloop, hnext⟩ := (gives_then_iff (x := turns turn start)).1 h
    exact gives_then_iff.2 ⟨b, u, gives_turns_of_turn (fun x => hturn x) hloop, ih b hnext⟩
  | call rule next ih =>
    obtain ⟨b, u, hrule, hnext⟩ := (gives_then_iff (x := call rule done)).1 h
    exact gives_then_iff.2 ⟨b, u, hrules rule s u b hrule, ih b hnext⟩

/-- With room for more rules inside each other an action succeeds in the same way. -/
theorem Gives.deeper
    {action : Action α}
    {s t : State}
    {a : α}
    (hle : depth ≤ more)
    (h : action.Gives depth s a t) :
    action.Gives more s a t := by
  induction depth generalizing more α s t with
  | zero => exact h.of_rules fun rule _ _ b hrule => absurd hrule (not_gives_call_zero rule b)
  | succ depth ih =>
    obtain ⟨more, rfl⟩ : ∃ less, more = less + 1 := ⟨more - 1, by omega⟩
    have hless : depth ≤ more := by omega
    exact h.of_rules fun rule _ _ b hrule =>
      (gives_call rule b).2 (ih hless ((gives_call rule b).1 hrule))

end Depth

/-! ### States behind each other -/

/-- An action behind another one comes through the states of both. -/
theorem reaches_bind
    {depth : Nat}
    {s u : State}
    (x : Action α)
    (f : α → Action β)
    (h : Reaches depth (x >>= f) s u) :
    Reaches depth x s u ∨ ∃ a t, x.Gives depth s a t ∧ Reaches depth (f a) t u := by
  change Reaches depth (x.bind f) s u at h
  induction x generalizing s with
  | done a => exact Or.inr ⟨a, s, (gives_pure a a).2 ⟨rfl, rfl⟩, h⟩
  | reject diagnostic =>
    cases h
    exact Or.inl (.here _ _)
  | ask request next ih =>
    cases h with
    | here => exact Or.inl (.here _ _)
    | @ask _ _ _ _ _ b _ t _ hperform hnext =>
      obtain hleft | ⟨a, v, hgives, hright⟩ := ih b f hnext
      · exact Or.inl (.ask hperform hleft)
      · exact Or.inr ⟨a, v, gives_then_iff.2 ⟨b, t, (gives_ask request b).2 hperform, hgives⟩,
          hright⟩
  | capture body next _ ih =>
    cases h with
    | here => exact Or.inl (.here _ _)
    | captured hbody => exact Or.inl (.captured hbody)
    | @pastCapture _ _ _ _ _ b _ t _ hbody hnext =>
      obtain hleft | ⟨a, v, hgives, hright⟩ := ih b f hnext
      · exact Or.inl (.pastCapture hbody hleft)
      · exact Or.inr ⟨a, v, gives_then_iff.2 ⟨b, t, hbody, hgives⟩, hright⟩
  | inProcedure body next _ ih =>
    cases h with
    | here => exact Or.inl (.here _ _)
    | enclosed hbody => exact Or.inl (.enclosed hbody)
    | @pastProcedure _ _ _ _ _ b _ t _ hbody hnext =>
      obtain hleft | ⟨a, v, hgives, hright⟩ := ih b f hnext
      · exact Or.inl (.pastProcedure hbody hleft)
      · exact Or.inr ⟨a, v, gives_then_iff.2 ⟨b, t, hbody, hgives⟩, hright⟩
  | loop turn start next _ ih =>
    cases h with
    | here => exact Or.inl (.here _ _)
    | turn hturns hturn => exact Or.inl (.turn hturns hturn)
    | @pastLoop _ _ _ _ _ _ _ b _ t _ hloop hnext =>
      obtain hleft | ⟨a, v, hgives, hright⟩ := ih b f hnext
      · exact Or.inl (.pastLoop hloop hleft)
      · exact Or.inr ⟨a, v, gives_then_iff.2 ⟨b, t, hloop, hgives⟩, hright⟩
  | call rule next ih =>
    cases h with
    | here => exact Or.inl (.here _ _)
    | rule hrule => exact Or.inl (.rule hrule)
    | @pastRule _ _ _ _ _ b _ t _ hrule hnext =>
      obtain hleft | ⟨a, v, hgives, hright⟩ := ih b f hnext
      · exact Or.inl (.pastRule hrule hleft)
      · exact Or.inr ⟨a, v, gives_then_iff.2 ⟨b, t, hrule, hgives⟩, hright⟩

end Action

/-! ### Records -/

/-- What is recorded behind an outcome; nothing is behind a halt. -/
def behind {γ : Type} : EStateM.Result Halt State β → (β → State → List γ) → List γ
  | .ok b t, record => record b t
  | .error _ _, _ => []

theorem mem_behind_iff
    {γ : Type} {result : EStateM.Result Halt State β} {record : β → State → List γ} {x : γ} :
    x ∈ behind result record ↔ ∃ b t, result = .ok b t ∧ x ∈ record b t := by
  cases result <;> simp [behind]

/-- The record of at most a number of turns. -/
def recordedTurns
    {γ : Type} (turn : σ → Effect (σ ⊕ β)) (record : σ → State → List γ) :
    Nat → σ → State → List γ
  | 0, _, _ => []
  | turns + 1, x, s => record x s ++ behind (turn x s) fun next t =>
      match next with
      | .inl y => recordedTurns turn record turns y t
      | .inr _ => []

/--
What is noted at the requests of an action while it is performed, where `rules` and `records` tell
about the named rules.
-/
def Action.recorded
    {γ : Type}
    (note : {β : Type} → Request β → State → List γ)
    (rules : {β : Type} → Rule β → Effect β)
    (records : {β : Type} → Rule β → State → List γ) :
    {α : Type} → Action α → State → List γ
  | _, done _, _ => []
  | _, reject _, _ => []
  | _, ask request next, s =>
    note request s ++
      behind (request.perform s) fun b => (next b).recorded note rules records
  | _, capture body next, s =>
    body.recorded note rules records { s with output := s.output.openCapture } ++
      behind (captured (body.run rules) s) fun b => (next b).recorded note rules records
  | _, inProcedure body next, s =>
    body.recorded note rules records s.entered ++
      behind (enclosed (body.run rules) s) fun b => (next b).recorded note rules records
  | _, loop turn start next, s =>
    recordedTurns (fun x => (turn x).run rules) (fun x => (turn x).recorded note rules records)
        (s.remaining + 1) start s ++
      behind (repeated (fun x => (turn x).run rules) start s) fun b =>
        (next b).recorded note rules records
  | _, call rule next, s =>
    records rule s ++ behind (rules rule s) fun b => (next b).recorded note rules records

/-- What is noted at the requests of a rule while it is performed. -/
def Rule.recorded
    {γ : Type} (note : {β : Type} → Request β → State → List γ) :
    Nat → {α : Type} → Rule α → State → List γ
  | 0, _, _, _ => []
  | depth + 1, _, rule, s =>
    rule.action.recorded note (Rule.run depth) (Rule.recorded note depth) s

namespace Action

section Records

variable
  {γ : Type} {note : {β : Type} → Request β → State → List γ} {depth : Nat} {s : State} {x : γ}

/-- A note is made at a request in a state that the action comes through. -/
def NotedAt
    (note : {β : Type} → Request β → State → List γ)
    (depth : Nat)
    (action : Action α)
    (s : State)
    (x : γ) : Prop :=
  ∃ u, action.Reaches depth s u ∧ ∃ (β : Type) (request : Request β), x ∈ note request u

theorem NotedAt.imp
    {action : Action α}
    {other : Action β}
    {more : Nat}
    {t : State}
    (hnoted : NotedAt note depth action s x)
    (h : ∀ u, action.Reaches depth s u → other.Reaches more t u) :
    NotedAt note more other t x := by
  obtain ⟨u, hreaches, hnote⟩ := hnoted
  exact ⟨u, h u hreaches, hnote⟩

theorem exists_iterates_of_mem_recordedTurns
    {turn : σ → Action (σ ⊕ β)}
    {record : σ → State → List γ}
    {turns : Nat}
    {start : σ}
    (h : x ∈ recordedTurns (fun y => (turn y).run (Rule.run depth)) record turns start s) :
    ∃ y t, Iterates depth turn start s y t ∧ x ∈ record y t := by
  induction turns generalizing start s with
  | zero => cases h
  | succ turns ih =>
    obtain hhere | hlater := List.mem_append.1 h
    · exact ⟨start, s, .refl start s, hhere⟩
    · obtain ⟨next, t, hturn, hlater⟩ := mem_behind_iff.1 hlater
      cases next with
      | inl y =>
        obtain ⟨z, u, hiterates, hrecord⟩ := ih hlater
        exact ⟨z, u, .step hturn hiterates, hrecord⟩
      | inr b => cases hlater

theorem gives_of_eq_ok
    {effect : Effect β} {b : β} {t : State} (h : effect s = .ok b t) :
    (effect >>= fun b => pure b) s = .ok b t := by
  rw [bind_pure, h]

/-- What an action records it notes on its way, if the rules that it calls do so. -/
theorem notedAt_of_rules
    (hrules : ∀ {β : Type} (rule : Rule β) (s : State) (x : γ),
      x ∈ Rule.recorded note depth rule s → NotedAt note depth (call rule done) s x)
    {action : Action α}
    (h : x ∈ action.recorded note (Rule.run depth) (Rule.recorded note depth) s) :
    NotedAt note depth action s x := by
  induction action generalizing s with
  | done a => cases h
  | reject diagnostic => cases h
  | ask request next ih =>
    obtain h | h := List.mem_append.1 h
    · exact ⟨s, .here _ s, _, request, h⟩
    · obtain ⟨b, t, hperform, h⟩ := mem_behind_iff.1 h
      exact (ih b h).imp fun u => .ask hperform
  | capture body next hbody ih =>
    obtain h | h := List.mem_append.1 h
    · exact (hbody h).imp fun u => .captured
    · obtain ⟨b, t, hcapture, h⟩ := mem_behind_iff.1 h
      exact (ih b h).imp fun u => .pastCapture (gives_of_eq_ok hcapture)
  | inProcedure body next hbody ih =>
    obtain h | h := List.mem_append.1 h
    · exact (hbody h).imp fun u => .enclosed
    · obtain ⟨b, t, hprocedure, h⟩ := mem_behind_iff.1 h
      exact (ih b h).imp fun u => .pastProcedure (gives_of_eq_ok hprocedure)
  | loop turn start next hturn ih =>
    obtain h | h := List.mem_append.1 h
    · obtain ⟨y, t, hiterates, h⟩ := exists_iterates_of_mem_recordedTurns h
      exact (hturn y h).imp fun u => .turn hiterates
    · obtain ⟨b, t, hloop, h⟩ := mem_behind_iff.1 h
      exact (ih b h).imp fun u => .pastLoop (gives_of_eq_ok hloop)
  | call rule next ih =>
    obtain h | h := List.mem_append.1 h
    · refine (hrules rule s x h).imp fun u hu => ?_
      cases hu with
      | here => exact .here _ s
      | rule hu => exact .rule hu
      | pastRule hgives hu =>
        cases hu
        exact .pastRule hgives (.here _ _)
    · obtain ⟨b, t, hrule, h⟩ := mem_behind_iff.1 h
      exact (ih b h).imp fun u => .pastRule (gives_of_eq_ok hrule)

/-- What an action records it notes on its way. -/
theorem notedAt_of_mem_recorded
    {action : Action α}
    (h : x ∈ action.recorded note (Rule.run depth) (Rule.recorded note depth) s) :
    NotedAt note depth action s x := by
  induction depth generalizing α s x with
  | zero => exact notedAt_of_rules (fun _ _ _ h => absurd h List.not_mem_nil) h
  | succ depth ih => exact notedAt_of_rules (fun _ _ _ h => (ih h).imp fun _ => .rule) h

/-- The states in which an action makes its requests. -/
def visited (action : Action α) (depth : Nat) (s : State) : List State :=
  action.recorded (fun _ s => [s]) (Rule.run depth) (Rule.recorded (fun _ s => [s]) depth) s

theorem reaches_of_mem_visited
    {action : Action α} {u : State} (h : u ∈ action.visited depth s) :
    action.Reaches depth s u := by
  obtain ⟨v, hreaches, _, _, hnote⟩ := notedAt_of_mem_recorded h
  obtain rfl := List.mem_singleton.1 hnote
  exact hreaches

end Records

/-! ### Requests -/

/-- A class of requests. -/
abbrev Requests := (β : Type) → Request β → Prop

/-- Procedures can be declared with these requests: signatures may be entered. -/
class Requests.Signing (allowed : Requests) : Prop where
  setSignature :
    ∀ index exported parameters result,
      allowed Unit (.setSignature index exported parameters result)

/--
Whatever it is answered, the action makes allowed requests only, opens procedure scopes only where
signatures may be entered, and rejects for reasons of the grammar only; the rules that it calls are
not looked at.
-/
def AsksOnly (allowed : Requests) : {α : Type} → Action α → Prop
  | _, done _ => True
  | _, reject diagnostic => diagnostic.OfRules
  | _, @ask _ β request next => allowed β request ∧ ∀ b, (next b).AsksOnly allowed
  | _, capture body next => body.AsksOnly allowed ∧ ∀ b, (next b).AsksOnly allowed
  | _, inProcedure body next =>
      allowed.Signing ∧ body.AsksOnly allowed ∧ ∀ b, (next b).AsksOnly allowed
  | _, loop turn _ next => (∀ x, (turn x).AsksOnly allowed) ∧ ∀ b, (next b).AsksOnly allowed
  | _, call _ next => ∀ b, (next b).AsksOnly allowed

/-- An action that makes allowed requests only, found from its parts. -/
class Uses (allowed : Requests) (action : Action α) : Prop where
  asksOnly : action.AsksOnly allowed

section Uses

variable {allowed : Requests}

instance (a : α) : Uses allowed (pure a : Action α) := ⟨trivial⟩

instance (diagnostic : Diagnostic) [h : diagnostic.OfRules] :
    Uses allowed (reject diagnostic : Action α) :=
  ⟨h⟩

instance (rule : Rule α) : Uses allowed (call rule done) := ⟨fun _ => trivial⟩

theorem Uses.ask {request : Request α} (h : allowed α request) : Uses allowed (ask request done) :=
  ⟨h, fun _ => trivial⟩

theorem AsksOnly.mono
    {more : Requests}
    (hmore : ∀ (β : Type) (request : Request β), allowed β request → more β request)
    {action : Action α}
    (h : action.AsksOnly allowed) :
    action.AsksOnly more := by
  induction action with
  | done a => trivial
  | reject diagnostic => exact h
  | ask request next ih => exact ⟨hmore _ request h.1, fun b => ih b (h.2 b)⟩
  | capture body next hbody ih => exact ⟨hbody h.1, fun b => ih b (h.2 b)⟩
  | inProcedure body next hbody ih =>
    obtain ⟨hsigning, hinside, hnext⟩ := h
    have hsigning' : more.Signing :=
      ⟨fun index exported parameters result =>
        hmore _ _ (hsigning.setSignature index exported parameters result)⟩
    exact ⟨hsigning', hbody hinside, fun b => ih b (hnext b)⟩
  | loop turn start next hturn ih => exact ⟨fun x => hturn x (h.1 x), fun b => ih b (h.2 b)⟩
  | call rule next ih => exact fun b => ih b (h b)

theorem AsksOnly.bind
    {x : Action α} {f : α → Action β} (hx : x.AsksOnly allowed) (hf : ∀ a, (f a).AsksOnly allowed) :
    (x.bind f).AsksOnly allowed := by
  induction x with
  | done a => exact hf a
  | reject diagnostic => exact hx
  | ask request next ih => exact ⟨hx.1, fun b => ih b (hx.2 b) hf⟩
  | capture body next _ ih => exact ⟨hx.1, fun b => ih b (hx.2 b) hf⟩
  | inProcedure body next _ ih => exact ⟨hx.1, hx.2.1, fun b => ih b (hx.2.2 b) hf⟩
  | loop turn start next _ ih => exact ⟨hx.1, fun b => ih b (hx.2 b) hf⟩
  | call rule next ih => exact fun b => ih b (hx b) hf

theorem Uses.bind
    {x : Action α}
    {f : α → Action β}
    [hx : Uses allowed x]
    (hf : ∀ a, Uses allowed (f a)) :
    Uses allowed (x >>= f) :=
  ⟨hx.asksOnly.bind fun a => (hf a).asksOnly⟩

instance (x : Action α) (f : α → Action β) [Uses allowed x] [hf : ∀ a, Uses allowed (f a)] :
    Uses allowed (x >>= f) :=
  .bind hf

instance
    (diagnostic : Diagnostic) (f : α → Action β) [h : diagnostic.OfRules] :
    Uses allowed (reject diagnostic >>= f) :=
  ⟨h⟩

instance (f : α → β) (x : Action α) [Uses allowed x] : Uses allowed (f <$> x) := by
  rw [← bind_pure_comp]
  infer_instance

instance (x : Action α) [Uses allowed x] : Uses allowed (discard x) :=
  inferInstanceAs (Uses allowed ((fun _ => ()) <$> x))

instance Uses.ite
    (p : Prop)
    [Decidable p]
    (x y : Action α)
    [hx : Uses allowed x]
    [hy : Uses allowed y] :
    Uses allowed (if p then x else y) := by
  split
  · exact hx
  · exact hy

instance (body : Action α) [h : Uses allowed body] : Uses allowed (textOf body) :=
  ⟨h.asksOnly, fun _ => trivial⟩

instance (body : Action α) [hsigning : allowed.Signing] [h : Uses allowed body] :
    Uses allowed (inProcedure body done) :=
  ⟨hsigning, h.asksOnly, fun _ => trivial⟩

instance (turn : σ → Action (σ ⊕ β)) (start : σ) [h : ∀ x, Uses allowed (turn x)] :
    Uses allowed (turns turn start) :=
  ⟨fun x => (h x).asksOnly, fun _ => trivial⟩

instance (more : Action Bool) (body : Action Unit) [Uses allowed more] [Uses allowed body] :
    Uses allowed (repeatWhile more body) := by
  unfold repeatWhile
  infer_instance

instance (item : Action α) (more : Action Bool) [Uses allowed item] [Uses allowed more] :
    Uses allowed (separated item more) := by
  unfold separated
  infer_instance

end Uses

end Action

/-! ### Invariants -/

open Oberon.Compilation.Action

/--
From a state with the invariant `I` the action comes only through states with it; it ends in such a
state and gives a result with the property `Q`.
-/
structure Keeps (I : State → Prop) (depth : Nat) (action : Action α) (Q : α → Prop) : Prop where
  reaches : ∀ {s u : State}, I s → action.Reaches depth s u → I u
  gives : ∀ {s t : State} {a : α}, I s → action.Gives depth s a t → I t ∧ Q a

namespace Keeps

variable {I : State → Prop} {depth : Nat}

theorem bind
    {x : Action α}
    {f : α → Action β}
    {P : α → Prop}
    {Q : β → Prop}
    (hx : Keeps I depth x P)
    (hf : ∀ a, P a → Keeps I depth (f a) Q) :
    Keeps I depth (x >>= f) Q where
  reaches hs h := by
    obtain h | ⟨a, t, hgives, h⟩ := reaches_bind x f h
    · exact hx.reaches hs h
    · obtain ⟨ht, ha⟩ := hx.gives hs hgives
      exact (hf a ha).reaches ht h
  gives hs h := by
    obtain ⟨a, u, hgives, h⟩ := (gives_bind x f _).1 h
    obtain ⟨hu, ha⟩ := hx.gives hs hgives
    exact (hf a ha).gives hu h

theorem pure {Q : α → Prop} {a : α} (h : Q a) : Keeps I depth (Pure.pure a) Q where
  reaches hs h := by
    cases h
    exact hs
  gives hs hgives := by
    obtain ⟨rfl, rfl⟩ := (gives_pure _ _).1 hgives
    exact ⟨hs, h⟩

theorem reject {Q : α → Prop} (diagnostic : Diagnostic) :
    Keeps I depth (Action.reject diagnostic) Q where
  reaches hs h := by
    cases h
    exact hs
  gives _ h := absurd h (gives_reject diagnostic _)

theorem ite
    {p : Prop}
    [Decidable p]
    {x y : Action α}
    {Q : α → Prop}
    (hx : p → Keeps I depth x Q)
    (hy : ¬ p → Keeps I depth y Q) :
    Keeps I depth (if p then x else y) Q := by
  split
  · exact hx ‹_›
  · exact hy ‹_›

/-- A result may have more properties than its action is known to give it. -/
theorem strengthen
    {action : Action α} {P Q : α → Prop} (h : Keeps I depth action P)
    (hQ : ∀ {s t a}, I s → action.Gives depth s a t → Q a) : Keeps I depth action Q where
  reaches := h.reaches
  gives hs hgives := ⟨(h.gives hs hgives).1, hQ hs hgives⟩

theorem weaken
    {action : Action α} {P Q : α → Prop} (h : Keeps I depth action P) (hPQ : ∀ a, P a → Q a) :
    Keeps I depth action Q where
  reaches := h.reaches
  gives hs hgives := ⟨(h.gives hs hgives).1, hPQ _ (h.gives hs hgives).2⟩

theorem ask
    {request : Request α} {Q : α → Prop}
    (h : ∀ {s t a}, I s → (Action.ask request done).Gives depth s a t → I t ∧ Q a) :
    Keeps I depth (ask request done) Q where
  reaches hs hreaches := by
    cases hreaches with
    | here => exact hs
    | ask hperform hnext =>
      cases hnext
      exact (h hs ((gives_ask request _).2 hperform)).1
  gives := h

theorem discard {action : Action α} {P : α → Prop} (h : Keeps I depth action P) :
    Keeps I depth (discard action) fun _ => True := by
  change Keeps I depth ((fun _ => ()) <$> action) _
  rw [← bind_pure_comp]
  exact h.bind fun _ _ => .pure trivial

theorem textOf
    {body : Action α} {Q : α → Prop}
    (hopen : ∀ s : State, I s → I { s with output := s.output.openCapture })
    (hclose : ∀ s : State, I s → I { s with output := s.output.closeCapture })
    (h : Keeps I depth body Q) : Keeps I depth (textOf body) fun result => Q result.1 := by
  have hgives : ∀ {s t : State} {result : α × String}, I s →
        (Action.textOf body).Gives depth s result t →
      I t ∧ Q result.1 := by
    intro s t result hs hgives
    obtain ⟨u, hbody, -, rfl⟩ := (gives_textOf body result).1 hgives
    obtain ⟨hu, ha⟩ := h.gives (hopen s hs) hbody
    exact ⟨hclose u hu, ha⟩
  refine ⟨?_, hgives⟩
  intro s u hs hreaches
  cases hreaches with
  | here => exact hs
  | captured hbody => exact h.reaches (hopen s hs) hbody
  | pastCapture hbody hnext =>
    cases hnext
    exact (hgives hs hbody).1

theorem inProcedure
    {body : Action α}
    {Q : α → Prop}
    (henter : ∀ s : State, I s → I s.entered)
    (hleave : ∀ (s t : State) (symbols : SymbolTable), I t →
      t.symbols.release s.symbols.mark = .ok () symbols →
      I { t with symbols, scope := .ofModule s.scope.floor })
    (h : Keeps I depth body Q) :
    Keeps I depth (Action.inProcedure body done) Q := by
  have hgives : ∀ {s t : State} {a : α}, I s →
      (Action.inProcedure body done).Gives depth s a t → I t ∧ Q a := by
    intro s t a hs hgives
    obtain ⟨u, symbols, hbody, hrelease, rfl⟩ := (gives_inProcedure body a).1 hgives
    obtain ⟨hu, ha⟩ := h.gives (henter s hs) hbody
    exact ⟨hleave s u symbols hu hrelease, ha⟩
  refine ⟨?_, hgives⟩
  intro s u hs hreaches
  cases hreaches with
  | here => exact hs
  | enclosed hbody => exact h.reaches (henter s hs) hbody
  | pastProcedure hbody hnext =>
    cases hnext
    exact (hgives hs hbody).1

theorem turns
    {turn : σ → Action (σ ⊕ β)} {start : σ} {P : σ → Prop} {Q : β → Prop}
    (hturn : ∀ x, P x → Keeps I depth (turn x) (Sum.elim P Q)) (hstart : P start) :
    Keeps I depth (turns turn start) Q := by
  have hiterates : ∀ {x y : σ} {s t : State}, P x → I s → Iterates depth turn x s y t →
      P y ∧ I t := by
    intro x y s t hx hs h
    induction h with
    | refl x s => exact ⟨hx, hs⟩
    | step hgives _ ih =>
      obtain ⟨ht, hy⟩ := (hturn _ hx).gives hs hgives
      exact ih hy ht
  have hiterate : ∀ (count : Nat) {x : σ} {s t : State} {b : β}, P x → I s →
      iterate (fun x => (turn x).run (Rule.run depth)) count x s = .ok b t → I t ∧ Q b := by
    intro count
    induction count with
    | zero =>
      intro x s t b _ _ h
      cases h
    | succ count ih =>
      intro x s t b hx hs h
      obtain ⟨next, u, hgives, h⟩ := (Effect.bind_eq_ok_iff ..).1 h
      obtain ⟨hu, hnext⟩ := (hturn x hx).gives hs hgives
      cases next with
      | inl y => exact ih hnext hu h
      | inr b =>
        cases h
        exact ⟨hu, hnext⟩
  have hgives : ∀ {s t : State} {b : β}, I s →
      (Action.turns turn start).Gives depth s b t → I t ∧ Q b := by
    intro s t b hs h
    obtain ⟨c, u, hloop, hdone⟩ := (Effect.bind_eq_ok_iff ..).1 h
    cases hdone
    exact hiterate _ hstart hs hloop
  refine ⟨?_, hgives⟩
  intro s u hs hreaches
  cases hreaches with
  | here => exact hs
  | turn hturns hreaches =>
    obtain ⟨hx, ht⟩ := hiterates hstart hs hturns
    exact (hturn _ hx).reaches ht hreaches
  | pastLoop hloop hnext =>
    cases hnext
    exact (hgives hs hloop).1

theorem repeatWhile
    {more : Action Bool}
    {body : Action Unit}
    (hmore : Keeps I depth more fun _ => True)
    (hbody : Keeps I depth body fun _ => True) :
    Keeps I depth (repeatWhile more body) fun _ => True := by
  refine turns (P := fun _ => True) (fun _ _ => hmore.bind fun again _ => ?_) trivial
  exact ite (fun _ => hbody.bind fun _ _ => .pure trivial) fun _ => .pure trivial

theorem separated
    {item : Action α} {more : Action Bool} {P : α → Prop} (hitem : Keeps I depth item P)
    (hmore : Keeps I depth more fun _ => True) :
    Keeps I depth (separated item more) fun items => ∀ a ∈ items, P a := by
  refine turns (P := fun items => ∀ a ∈ items, P a)
    (fun items hitems => hitem.bind fun a ha => ?_) (by simp)
  refine hmore.bind fun again _ => ite (fun _ => .pure ?_) fun _ => .pure ?_
  · simpa [ha] using hitems
  · simpa [ha, or_imp, forall_and] using hitems

theorem call_zero (rule : Rule α) {Q : α → Prop} : Keeps I 0 (call rule done) Q where
  reaches hs h := by
    cases h with
    | here => exact hs
    | pastRule hrule _ => exact absurd hrule (not_gives_call_zero rule _)
  gives _ h := absurd h (not_gives_call_zero rule _)

theorem call_succ {rule : Rule α} {Q : α → Prop} (h : Keeps I depth rule.action Q) :
    Keeps I (depth + 1) (call rule done) Q where
  reaches hs hreaches := by
    cases hreaches with
    | here => exact hs
    | rule hrule => exact h.reaches hs hrule
    | pastRule hrule hnext =>
      cases hnext
      exact (h.gives hs ((gives_call rule _).1 hrule)).1
  gives hs hgives := h.gives hs ((gives_call rule _).1 hgives)

end Keeps

/-- What an invariant must survive to be kept by all actions that make allowed requests only. -/
structure Invariant (I : State → Prop) (allowed : Requests) : Prop where
  request : ∀ {β : Type} (request : Request β) (s t : State) (b : β),
    allowed β request → I s → request.perform s = .ok b t → I t
  openCapture : ∀ s : State, I s → I { s with output := s.output.openCapture }
  closeCapture : ∀ s : State, I s → I { s with output := s.output.closeCapture }
  enter : allowed.Signing → ∀ s : State, I s → I s.entered
  leave : allowed.Signing → ∀ (s t : State) (symbols : SymbolTable), I t →
    t.symbols.release s.symbols.mark = .ok () symbols →
      I { t with symbols, scope := .ofModule s.scope.floor }

namespace Invariant

variable {I : State → Prop} {allowed : Requests}

/-- An invariant is kept by an action if the rules keep it. -/
theorem keeps_of_asksOnly
    {depth : Nat}
    (hI : Invariant I allowed)
    (hrules : ∀ {β : Type} (rule : Rule β), Keeps I depth (call rule done) fun _ => True)
    (action : Action α) :
    action.AsksOnly allowed → Keeps I depth action fun _ => True := by
  induction action with
  | done a => exact fun _ => Keeps.pure trivial
  | reject diagnostic => exact fun _ => Keeps.reject diagnostic
  | ask request next ih =>
    rintro ⟨hrequest, hnext⟩
    have hask : Keeps I depth (ask request done) fun _ => True :=
      .ask fun hs hgives => ⟨hI.request request _ _ _ hrequest hs ((gives_ask request _).1 hgives),
        trivial⟩
    exact hask.bind fun b _ => ih b (hnext b)
  | capture body next hbody ih =>
    rintro ⟨huses, hnext⟩
    exact (Keeps.textOf hI.openCapture hI.closeCapture (hbody huses)).bind fun b _ => ih b (hnext b)
  | inProcedure body next hbody ih =>
    rintro ⟨hsigning, huses, hnext⟩
    have hinside := Keeps.inProcedure (hI.enter hsigning) (hI.leave hsigning) (hbody huses)
    exact hinside.bind fun b _ => ih b (hnext b)
  | loop turn start next hturn ih =>
    rintro ⟨huses, hnext⟩
    have hloop : Keeps I depth (turns turn start) fun _ => True := by
      refine Keeps.turns (P := fun _ => True) (fun x _ => (hturn x (huses x)).weaken ?_) trivial
      rintro (y | b) _ <;> trivial
    exact hloop.bind fun b _ => ih b (hnext b)
  | call rule next ih =>
    intro hnext
    exact (hrules rule).bind fun b _ => ih b (hnext b)

theorem keeps_call
    (hI : Invariant I allowed)
    (hrules : ∀ {β : Type} (rule : Rule β), Uses allowed rule.action)
    (depth : Nat) :
    ∀ {β : Type} (rule : Rule β), Keeps I depth (call rule done) fun _ => True := by
  induction depth with
  | zero => exact fun rule => .call_zero rule
  | succ depth ih =>
    intro β rule
    exact .call_succ (hI.keeps_of_asksOnly ih rule.action (hrules rule).asksOnly)

/-- An invariant is kept by every action that makes allowed requests only. -/
theorem keeps
    (hI : Invariant I allowed)
    (hrules : ∀ {β : Type} (rule : Rule β), Uses allowed rule.action)
    (depth : Nat)
    (action : Action α)
    [huses : Uses allowed action] :
    Keeps I depth action fun _ => True :=
  hI.keeps_of_asksOnly (hI.keeps_call hrules depth) action huses.asksOnly

end Invariant

end Compilation
end Oberon
