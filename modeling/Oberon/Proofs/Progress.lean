import Oberon.Proofs.Catalog
import Oberon.Proofs.Success

/-!
# Progress

What holds between the start and the end of every run, and how far a run gets.

**Relations kept by runs.**  A reflexive and transitive relation between states that every request
keeps, and that opening and closing captures and procedure scopes keeps, holds between the start and
the end of every action, whether it succeeds or halts (`Kept.run`).  What a request can do to the
state is said once (`Request.ends_perform`).

**Tokens to come.**  Taking a token never raises `State.remaining` and lowers it unless the end of
the source is taken (`remaining_takeToken_lt`).  So no action raises it, and a loop whose turns take
a token has turns enough (`gives_turns_iff`).

**Types.**  Types are only ever added, so a type keeps its number and its shape (`kept_types`).
-/

namespace Oberon

/-- Only the empty text reads as the end of the source. -/
theorem Reading.kind_ne_eof
    {c : Char} {rest : List Char} {kind : Token.Kind} {lexeme : String}
    (h : (Reading.of (c :: rest)).outcome = .ok (kind, lexeme)) :
    kind ≠ .eof := by
  rintro rfl
  simp only [Reading.of, Reading.word, Reading.number, Reading.decimal, Reading.fraction,
    Reading.exponent, Reading.quoted, Reading.punctuation, Reading.long, Reading.short] at h
  repeat' split at h
  all_goals simp_all

theorem Cursor.rest_eq_nil_of_read
    {c behind : Cursor} {t : Token}
    (h : c.read = (.ok t, behind)) (ht : t.kind = .eof) :
    behind.rest = [] := by
  cases hbody : c.body with
  | nil =>
    rw [Cursor.read_of_body_nil hbody, Prod.mk.injEq] at h
    rw [← h.2]
  | cons first rest =>
    simp only [Cursor.read, hbody, Prod.mk.injEq] at h
    cases houtcome : (Reading.of (first :: rest)).outcome with
    | error e => simp [houtcome, Except.map] at h
    | ok found =>
      rw [houtcome] at h
      obtain ⟨h, -⟩ := h
      cases h
      exact absurd ht (Reading.kind_ne_eof houtcome)

theorem Token.reserve_kind_ne_eof (t : Token) (word : Option Keyword) (h : t.kind = .identifier) :
    (t.reserve word).kind ≠ .eof := by
  cases word with
  | none => simp [Token.reserve, h]
  | some word => cases word <;> simp [Token.reserve]

/-- The end of the source leaves nothing behind it. -/
theorem Cursor.rest_eq_nil_of_next
    {symbols : SymbolTable} {c behind : Cursor} {t : Token}
    (h : c.next symbols = .ok t behind) (ht : t.kind = .eof) :
    behind.rest = [] := by
  unfold Cursor.next at h
  split at h
  · cases h
  · rename_i token after hread
    split at h
    · rename_i hkind
      split at h
      · cases h
      · cases h
        exact absurd ht (Token.reserve_kind_ne_eof token _ hkind)
    · cases h
      exact Cursor.rest_eq_nil_of_read hread ht

/-- Any other token takes at least one character. -/
theorem Cursor.length_next_lt
    {symbols : SymbolTable} {c behind : Cursor} {t : Token}
    (h : c.next symbols = .ok t behind) (ht : t.kind ≠ .eof) :
    behind.rest.length < c.rest.length := by
  unfold Cursor.next at h
  split at h
  · cases h
  · rename_i token after hread
    split at h
    · rename_i hkind
      split at h
      · cases h
      · cases h
        exact Cursor.length_lt_of_read hread (by simp [hkind])
    · cases h
      exact Cursor.length_lt_of_read hread ht

namespace Compilation

variable {α β σ : Type}

/-- What taking a token does to the state. -/
theorem Request.takeToken_eq_ok_iff {s t : State} {a : Unit} :
    Request.takeToken s = .ok a t ↔
      ∃ token cursor, s.cursor.next s.symbols = .ok token cursor ∧
        t = { s with cursor, token } := by
  unfold Request.takeToken
  split
  · rename_i token cursor hnext
    simp [hnext, eq_comm]
  · rename_i e cursor hnext
    simp [hnext]
  · rename_i f cursor hnext
    simp [hnext]

theorem remaining_takeToken_le
    {s t : State} (h : Request.takeToken s = .ok () t) :
    t.remaining ≤ s.remaining := by
  obtain ⟨token, cursor, hnext, rfl⟩ := Request.takeToken_eq_ok_iff.1 h
  unfold State.remaining
  by_cases htoken : token.kind = .eof
  · have hrest := Cursor.rest_eq_nil_of_next hnext htoken
    simp [htoken, hrest]
  · have hlt := Cursor.length_next_lt hnext htoken
    simp only [htoken, if_false]
    omega

theorem remaining_takeToken_lt
    {s t : State} (h : Request.takeToken s = .ok () t)
    (hs : s.token.kind ≠ .eof) :
    t.remaining < s.remaining := by
  obtain ⟨token, cursor, hnext, rfl⟩ := Request.takeToken_eq_ok_iff.1 h
  unfold State.remaining
  by_cases htoken : token.kind = .eof
  · have hrest := Cursor.rest_eq_nil_of_next hnext htoken
    simp [htoken, hrest, hs]
  · have hlt := Cursor.length_next_lt hnext htoken
    simp only [htoken, if_false, hs]
    omega

/-! ### Relations kept by runs -/

/-- The state in which an effect ends, by success or by a halt. -/
def endState : EStateM.Result Halt State α → State
  | .ok _ t => t
  | .error _ t => t

section Related

variable {R : State → State → Prop} {s : State}

theorem related_bind
    {x : Effect α}
    {f : α → Effect β}
    (htrans : ∀ {s t u}, R s t → R t u → R s u)
    (hx : R s (endState (x s)))
    (hf : ∀ a u, x s = .ok a u → R u (endState (f a u))) :
    R s (endState ((x >>= f) s)) := by
  change R s (endState (EStateM.bind x f s))
  unfold EStateM.bind
  cases hresult : x s with
  | ok a u =>
    rw [hresult] at hx
    exact htrans hx (hf a u hresult)
  | error halt u =>
    rw [hresult] at hx
    exact hx

theorem related_captured
    {effect : Effect α}
    (hcapture : ∀ t, R { s with output := s.output.openCapture } t →
      R s { t with output := t.output.closeCapture })
    (heffect : R { s with output := s.output.openCapture }
      (endState (effect { s with output := s.output.openCapture }))) :
    R s (endState (Action.captured effect s)) := by
  unfold Action.captured
  cases hresult : effect { s with output := s.output.openCapture } with
  | ok a t =>
    rw [hresult] at heffect
    exact hcapture t heffect
  | error halt t =>
    rw [hresult] at heffect
    exact hcapture t heffect

/-- A procedure scope is left on success and on a halt. -/
theorem endState_enclosed (effect : Effect α) (s : State) :
    endState (Action.enclosed effect s) = endState (Action.leave s.symbols.mark s.scope.floor
      (endState (effect s.entered))) := by
  unfold Action.enclosed
  cases effect s.entered with
  | ok a t =>
    cases hleave : Action.leave s.symbols.mark s.scope.floor t with
    | ok _ u => simp [endState, hleave]
    | error halt u => simp [endState, hleave]
  | error halt t =>
    cases hleave : Action.leave s.symbols.mark s.scope.floor t with
    | ok _ u => simp [endState, hleave]
    | error fault u => simp [endState, hleave]

/-- Turns that start as `good` says are followed by such turns. -/
theorem related_iterate
    {turn : σ → Effect (σ ⊕ β)}
    (hrefl : ∀ s, R s s)
    (htrans : ∀ {s t u}, R s t → R t u → R s u)
    (good : σ → State → Prop)
    (hturn : ∀ x s, good x s → R s (endState (turn x s)))
    (hgood : ∀ x y s t, good x s → turn x s = .ok (.inl y) t → good y t)
    (turns : Nat) :
    ∀ (x : σ) (s : State), good x s → R s (endState (Action.iterate turn turns x s)) := by
  induction turns with
  | zero =>
    intro x s _
    exact hrefl s
  | succ turns ih =>
    intro x s hs
    refine related_bind htrans (hturn x s hs) ?_
    intro next u hnext
    cases next with
    | inl y => exact ih y u (hgood x y s u hs hnext)
    | inr b => exact hrefl u

end Related

/-- A relation between states that everything an action is put together from keeps. -/
structure Kept (R : State → State → Prop) : Prop where
  refl : ∀ s, R s s
  trans : ∀ {s t u}, R s t → R t u → R s u
  request : ∀ {β : Type} (r : Request β) (s : State), R s (endState (r.perform s))
  capture : ∀ s t : State,
    R { s with output := s.output.openCapture } t →
    R s { t with output := t.output.closeCapture }
  procedure : ∀ s t : State,
    R s.entered t →
    R s (endState (Action.leave s.symbols.mark s.scope.floor t))

namespace Kept

variable {R : State → State → Prop}

theorem enclosed
    (h : Kept R) {effect : Effect α} (heffect : ∀ s, R s (endState (effect s))) (s : State) :
    R s (endState (Action.enclosed effect s)) := by
  rw [endState_enclosed]
  exact h.procedure s _ (heffect _)

/-- An action keeps the relation if the rules do. -/
theorem run
    (h : Kept R) {rules : {β : Type} → Rule β → Effect β}
    (hrules : ∀ {β : Type} (rule : Rule β) (s : State), R s (endState (rules rule s)))
    (action : Action α) :
    ∀ s : State, R s (endState (action.run rules s)) := by
  induction action with
  | done a => exact h.refl
  | reject diagnostic => exact h.refl
  | ask request next ih =>
    intro s
    exact related_bind h.trans (h.request request s) fun answer u _ => ih answer u
  | capture body next hbody ih =>
    intro s
    exact related_bind h.trans (related_captured (h.capture s) (hbody _))
      fun answer u _ => ih answer u
  | inProcedure body next hbody ih =>
    intro s
    exact related_bind h.trans (h.enclosed hbody s) fun answer u _ => ih answer u
  | loop turn start next hturn ih =>
    intro s
    have hloop :=
      related_iterate h.refl h.trans (fun _ _ => True) (fun x s _ => hturn x s)
        (fun _ _ _ _ _ _ => trivial)
      (s.remaining + 1) start s trivial
    exact related_bind h.trans hloop fun answer u _ => ih answer u
  | call rule next ih =>
    intro s
    exact related_bind h.trans (hrules rule s) fun answer u _ => ih answer u

theorem rule
    (h : Kept R) (depth : Nat) :
    ∀ {β : Type} (rule : Rule β) (s : State), R s (endState (Rule.run depth rule s)) := by
  induction depth with
  | zero =>
    intro β rule s
    exact h.refl s
  | succ depth ih =>
    intro β rule s
    exact h.run ih rule.action s

/-- A successful action keeps the relation. -/
theorem gives
    (h : Kept R) {depth : Nat} {action : Action α} {s t : State} {a : α}
    (hgives : action.Gives depth s a t) : R s t := by
  have hrun := h.run (h.rule depth) action s
  rw [show action.run (Rule.run depth) s = .ok a t from hgives] at hrun
  exact hrun

end Kept

@[simp] theorem endState_ofTable (answer : Except Fault α) (s : State) :
    endState (Request.ofTable answer s) = s := by
  cases answer with
  | ok a => rfl
  | error fault => rfl

@[simp] theorem endState_ofTypes (answer : Except TypeError α) (s : State) :
    endState (Request.ofTypes answer s) = s := by
  cases answer with
  | ok a => rfl
  | error error => rfl

/-- What a request can do to the state: most of them only read it. -/
inductive Request.Ends : {β : Type} → Request β → State → State → Prop
  | unchanged {β : Type} (request : Request β) (s : State) : Ends request s s
  | take
      {s : State}
      {cursor : Cursor}
      {token : Token}
      (h : endState (Request.takeToken s) = { s with cursor, token }) :
      Ends .take s { s with cursor, token }
  | write (text : String) (s : State) :
      Ends (.write text) s { s with output := s.output.write text }
  | publish (text : String) (s : State) :
      Ends (.publish text) s { s with output := s.output.publish text }
  | nameModule (name : String) (s : State) : Ends (.nameModule name) s { s with moduleName := name }
  | addType (shape : Shape) (s : State) :
      Ends (.addType shape) s { s with types := (s.types.add shape).2 }
  | declare
      {name : String}
      {kind : Symbol.Kind}
      {type : DataType}
      {s : State}
      {index : Nat}
      {symbols : SymbolTable}
      (hadd : s.symbols.add name kind type = .ok (index, symbols)) :
      Ends (.declare name kind type) s { s with symbols }
  | setType
      {index : Nat}
      {type : DataType}
      {s : State}
      {symbols : SymbolTable}
      (hset : s.symbols.setType index type = .ok symbols) :
      Ends (.setType index type) s { s with symbols }
  | setSignature
      {index : Nat}
      {exported : Bool}
      {parameters : List DataType}
      {result : DataType}
      {s : State}
      {symbols : SymbolTable}
      (hset : s.symbols.update index
        (fun symbol => { symbol with kind := .procedure exported parameters, type := result }) =
        .ok symbols) :
      Ends (.setSignature index exported parameters result) s
        { s with symbols, scope := { s.scope with result } }

theorem Request.ends_takeToken (s : State) : Ends .take s (endState (takeToken s)) := by
  have htaken : ∃ cursor token, endState (takeToken s) = { s with cursor, token } := by
    unfold takeToken
    split <;> exact ⟨_, _, rfl⟩
  obtain ⟨cursor, token, h⟩ := htaken
  rw [h]
  exact .take h

theorem Request.ends_setSignature
    (index : Nat) (exported : Bool) (parameters : List DataType) (result : DataType) (s : State) :
    Ends (.setSignature index exported parameters result) s
      (endState ((Request.setSignature index exported parameters result).perform s)) := by
  simp only [perform]
  change Ends _ s (endState (EStateM.bind _ _ s))
  unfold EStateM.bind changeSymbols
  split
  · rename_i a t hchange
    split at hchange
    · rename_i symbols hset
      cases hchange
      exact .setSignature hset
    · cases hchange
  · rename_i halt t hchange
    split at hchange
    · cases hchange
    · cases hchange
      exact .unchanged _ s

/-- Every request ends in one of these ways, by success or by a halt. -/
theorem Request.ends_perform (request : Request β) (s : State) :
    request.Ends s (endState (request.perform s)) := by
  cases request with
  | take => exact ends_takeToken s
  | write text => exact .write text s
  | publish text => exact .publish text s
  | nameModule name => exact .nameModule name s
  | addType shape => exact .addType shape s
  | declare name kind type =>
    change Ends _ s (endState (declareSymbol name kind type s))
    unfold declareSymbol
    split
    · exact .declare ‹_›
    · exact .unchanged _ s
  | setType index type =>
    change Ends _ s (endState (changeSymbols (fun t => t.setType index type) s))
    unfold changeSymbols
    split
    · exact .setType ‹_›
    · exact .unchanged _ s
  | setSignature index exported parameters result =>
    exact ends_setSignature index exported parameters result s
  | find name =>
    change Ends _ s (endState (ofTable _ s))
    rw [endState_ofTable]
    exact .unchanged _ s
  | symbol index =>
    change Ends _ s (endState (ofTable _ s))
    rw [endState_ofTable]
    exact .unchanged _ s
  | nameOf index =>
    change Ends _ s (endState (ofTable _ s))
    rw [endState_ofTable]
    exact .unchanged _ s
  | resolve index =>
    change Ends _ s (endState (ofTable _ s))
    rw [endState_ofTable]
    exact .unchanged _ s
  | requireCompatible a b =>
    change Ends _ s (endState (ofTypes _ s))
    rw [endState_ofTypes]
    exact .unchanged _ s
  | element type =>
    change Ends _ s (endState (ofTypes _ s))
    rw [endState_ofTypes]
    exact .unchanged _ s
  | look => exact .unchanged .look s
  | form type => exact .unchanged (.form type) s
  | moduleName => exact .unchanged .moduleName s
  | scope => exact .unchanged .scope s

/-! ### Tokens to come -/

theorem Cursor.length_read_le (c : Cursor) : c.read.2.rest.length ≤ c.rest.length := by
  by_cases hbody : c.body = []
  · simp [Cursor.read_of_body_nil hbody]
  · exact Nat.le_of_lt (c.length_read_lt hbody)

/-- A malformed token leaves the current one and moves through the source as reading it does. -/
theorem Request.takeToken_error
    {s t : State} {halt : Halt} (h : Request.takeToken s = .error halt t) :
    t = { s with cursor := s.cursor.read.2 } := by
  unfold Request.takeToken Cursor.next at h
  cases hread : s.cursor.read with
  | mk outcome behind =>
    cases outcome with
    | error e =>
      simp only [hread] at h
      cases h
      rfl
    | ok token =>
      by_cases hkind : token.kind = .identifier
      · cases hword : s.symbols.keyword? token.lexeme with
        | error f =>
          simp only [hread, hkind, hword, if_true] at h
          cases h
          rfl
        | ok word => simp [hread, hkind, hword] at h
      · simp [hread, hkind] at h

theorem remaining_endState_takeToken (s : State) :
    (endState (Request.takeToken s)).remaining ≤ s.remaining := by
  cases htake : Request.takeToken s with
  | ok a t => exact remaining_takeToken_le htake
  | error halt t =>
    have hread := Cursor.length_read_le s.cursor
    rw [endState, Request.takeToken_error htake]
    unfold State.remaining
    simp only
    omega

/-- No request raises the number of tokens to come. -/
theorem Request.Ends.remaining_le
    {request : Request β} {s t : State} (h : request.Ends s t) :
    t.remaining ≤ s.remaining := by
  cases h with
  | take h =>
    rw [← h]
    exact remaining_endState_takeToken s
  | _ => exact Nat.le_refl _

theorem remaining_endState_leave
    (mark : SymbolTable.Mark) (floor : Nat) (t : State) :
    (endState (Action.leave mark floor t)).remaining = t.remaining := by
  unfold Action.leave
  cases t.symbols.release mark with
  | ok a symbols => rfl
  | error fault symbols => rfl

theorem kept_remaining : Kept fun s t => t.remaining ≤ s.remaining where
  refl s := Nat.le_refl _
  trans hst htu := Nat.le_trans htu hst
  request r s := (r.ends_perform s).remaining_le
  capture s t h := h
  procedure s t h := by
    rw [remaining_endState_leave]
    exact h

/-- No action raises the number of tokens to come. -/
theorem Action.Gives.remaining_le
    {depth : Nat} {action : Action α} {s t : State} {a : α}
    (h : action.Gives depth s a t) : t.remaining ≤ s.remaining :=
  kept_remaining.gives h

/-! ### Known types -/

theorem Request.Ends.types_extends
    {request : Request β} {s t : State} (h : request.Ends s t) :
    t.types.Extends s.types := by
  cases h with
  | addType shape => exact TypeCatalog.extends_add s.types shape
  | _ => exact .refl _

/-- No action takes a type away or changes it. -/
theorem kept_types : Kept fun s t => t.types.Extends s.types where
  refl s := .refl _
  trans hst htu := htu.trans hst
  request r s := (r.ends_perform s).types_extends
  capture s t h := h
  procedure s t h := by
    unfold Action.leave
    cases t.symbols.release s.symbols.mark <;> exact h

/-! ### Loops -/

namespace Action

/-- Turns up to the one that gives a result. -/
inductive Turns (depth : Nat) (turn : σ → Action (σ ⊕ β)) : σ → State → β → State → Prop
  | last {x : σ} {s t : State} {b : β}
      (hturn : (turn x).Gives depth s (.inr b) t) :
      Turns depth turn x s b t
  | more {x y : σ} {s t u : State} {b : β}
      (hturn : (turn x).Gives depth s (.inl y) u)
      (hrest : Turns depth turn y u b t) :
      Turns depth turn x s b t

/-- Every turn with another one behind it takes a token. -/
def Advancing (depth : Nat) (turn : σ → Action (σ ⊕ β)) : Prop :=
  ∀ x s y u, (turn x).Gives depth s (.inl y) u → u.remaining < s.remaining

theorem turns_of_iterate
    {depth : Nat} {turn : σ → Action (σ ⊕ β)} (count : Nat) :
    ∀ {x : σ} {s t : State} {b : β},
      iterate (fun x => (turn x).run (Rule.run depth)) count x s = .ok b t →
      Turns depth turn x s b t := by
  induction count with
  | zero =>
    intro x s t b h
    cases h
  | succ count ih =>
    intro x s t b h
    unfold iterate at h
    rw [Effect.bind_eq_ok_iff] at h
    obtain ⟨next, u, hturn, hrest⟩ := h
    cases next with
    | inl y => exact .more hturn (ih hrest)
    | inr c =>
      cases hrest
      exact .last hturn

theorem Turns.iterate
    {depth : Nat} {turn : σ → Action (σ ⊕ β)} (hadvancing : Advancing depth turn)
    {x : σ} {s t : State} {b : β} (h : Turns depth turn x s b t) :
    ∀ count, s.remaining < count →
      iterate (fun x => (turn x).run (Rule.run depth)) count x s = .ok b t := by
  induction h with
  | last hturn =>
    intro count hcount
    obtain ⟨count, rfl⟩ : ∃ k, count = k + 1 := ⟨count - 1, by omega⟩
    unfold Action.iterate
    rw [Effect.bind_eq_ok_iff]
    exact ⟨_, _, hturn, rfl⟩
  | @more x y s t u b hturn hrest ih =>
    intro count hcount
    have hlt := hadvancing x s y u hturn
    obtain ⟨count, rfl⟩ : ∃ k, count = k + 1 := ⟨count - 1, by omega⟩
    unfold Action.iterate
    rw [Effect.bind_eq_ok_iff]
    exact ⟨_, _, hturn, ih count (by omega)⟩

theorem turns_of_gives
    {depth : Nat} {turn : σ → Action (σ ⊕ β)} {start : σ} {s t : State} {b : β}
    (h : (turns turn start).Gives depth s b t) : Turns depth turn start s b t := by
  unfold Gives turns at h
  simp only [run] at h
  rw [Effect.bind_eq_ok_iff] at h
  obtain ⟨c, u, hloop, hdone⟩ := h
  cases hdone
  exact turns_of_iterate _ hloop

/-- A loop whose turns take tokens is never cut short. -/
theorem gives_turns_iff
    {depth : Nat} {turn : σ → Action (σ ⊕ β)} (hadvancing : Advancing depth turn)
    {start : σ} {s t : State} {b : β} :
    (turns turn start).Gives depth s b t ↔ Turns depth turn start s b t := by
  refine ⟨turns_of_gives, fun h => ?_⟩
  unfold Gives turns
  simp only [run]
  rw [Effect.bind_eq_ok_iff]
  exact ⟨b, t, h.iterate hadvancing _ (Nat.lt_succ_self _), rfl⟩

/-- Runs of `body`, each behind a positive answer of `more`, up to the first negative one. -/
inductive Rounds (depth : Nat) (more : Action Bool) (body : Action Unit) : State → State → Prop
  | last {s t : State}
      (hmore : more.Gives depth s false t) :
      Rounds depth more body s t
  | again {s t u v : State}
      (hmore : more.Gives depth s true u)
      (hbody : body.Gives depth u () v)
      (hrest : Rounds depth more body v t) :
      Rounds depth more body s t

theorem rounds_of_gives
    {depth : Nat} {more : Action Bool} {body : Action Unit} {s t : State} {a : Unit}
    (h : (repeatWhile more body).Gives depth s a t) : Rounds depth more body s t := by
  unfold repeatWhile at h
  have hturns := turns_of_gives h
  generalize () = x at hturns
  clear h
  induction hturns with
  | @last x s t b hturn =>
    rw [gives_bind] at hturn
    obtain ⟨again, v, hmore, hturn⟩ := hturn
    cases again with
    | false =>
      simp only [Bool.false_eq_true, if_false, gives_pure] at hturn
      obtain ⟨-, rfl⟩ := hturn
      exact .last hmore
    | true => simp at hturn
  | @more x y s t u b hturn hrest ih =>
    rw [gives_bind] at hturn
    obtain ⟨again, v, hmore, hturn⟩ := hturn
    cases again with
    | false => simp at hturn
    | true =>
      simp only [if_true, gives_bind, gives_pure] at hturn
      obtain ⟨_, w, hbody, -, rfl⟩ := hturn
      exact .again hmore hbody ih

theorem advancing_repeatWhile
    {depth : Nat} {more : Action Bool} {body : Action Unit}
    (hadvancing : ∀ s u v,
      more.Gives depth s true u → body.Gives depth u () v → v.remaining < s.remaining) :
    Advancing depth fun _ : Unit => (do
      if ← more then
        body
        return .inl ()
      else return .inr () : Action (Unit ⊕ Unit)) := by
  intro x s y u h
  rw [gives_bind] at h
  obtain ⟨again, v, hmore, h⟩ := h
  cases again with
  | false => simp at h
  | true =>
    simp only [if_true, gives_bind, gives_pure] at h
    obtain ⟨_, w, hbody, -, rfl⟩ := h
    exact hadvancing s v _ hmore hbody

theorem gives_repeatWhile_iff
    {depth : Nat} {more : Action Bool} {body : Action Unit}
    (hadvancing : ∀ s u v,
      more.Gives depth s true u → body.Gives depth u () v → v.remaining < s.remaining)
    {s t : State} {a : Unit} :
    (repeatWhile more body).Gives depth s a t ↔ Rounds depth more body s t := by
  refine ⟨rounds_of_gives, fun h => ?_⟩
  unfold repeatWhile
  rw [gives_turns_iff (advancing_repeatWhile hadvancing)]
  induction h with
  | @last s t hmore =>
    refine .last ?_
    rw [gives_bind]
    exact ⟨false, t, hmore, by simp⟩
  | @again s t u v hmore hbody hrest ih =>
    refine .more ?_ ih
    rw [gives_bind]
    exact ⟨true, u, hmore, by simpa using ⟨(), hbody⟩⟩

/-- Items, the last one alone without another one behind it. -/
inductive Items (depth : Nat) (item : Action α) (more : Action Bool) :
    State → List α → State → Prop
  | last {s t u : State} {a : α}
      (hitem : item.Gives depth s a u)
      (hmore : more.Gives depth u false t) :
      Items depth item more s [a] t
  | cons {s t u v : State} {a : α} {others : List α}
      (hitem : item.Gives depth s a u)
      (hmore : more.Gives depth u true v)
      (hrest : Items depth item more v others t) :
      Items depth item more s (a :: others) t

theorem items_of_gives
    {depth : Nat} {item : Action α} {more : Action Bool} {s t : State} {items : List α}
    (h : (separated item more).Gives depth s items t) : Items depth item more s items t := by
  -- The turns hold the items read so far in reverse.
  suffices hgeneral : ∀ (taken : List α) (s t : State) (all : List α),
      Turns depth (fun taken => do
        let a ← item
        if ← more then return .inl (a :: taken)
        else return .inr (a :: taken).reverse) taken s all t →
        ∃ items, Items depth item more s items t ∧ all = taken.reverse ++ items by
    obtain ⟨found, hfound, rfl⟩ := hgeneral [] s t items (turns_of_gives h)
    exact hfound
  intro taken s t all h
  induction h with
  | @last x s t b hturn =>
    simp only [gives_bind] at hturn
    obtain ⟨a, v, hitem, again, w, hmore, hturn⟩ := hturn
    cases again with
    | false =>
      simp only [Bool.false_eq_true, if_false, gives_pure, Sum.inr.injEq] at hturn
      obtain ⟨rfl, rfl⟩ := hturn
      exact ⟨[a], .last hitem hmore, by simp⟩
    | true => simp at hturn
  | @more x y s t u b hturn hrest ih =>
    simp only [gives_bind] at hturn
    obtain ⟨a, v, hitem, again, w, hmore, hturn⟩ := hturn
    cases again with
    | false => simp at hturn
    | true =>
      simp only [if_true, gives_pure, Sum.inl.injEq] at hturn
      obtain ⟨rfl, rfl⟩ := hturn
      obtain ⟨items, hitems, rfl⟩ := ih
      exact ⟨a :: items, .cons hitem hmore hitems, by simp⟩

theorem advancing_separated
    {depth : Nat} {item : Action α} {more : Action Bool}
    (hadvancing : ∀ s a u v,
      item.Gives depth s a u → more.Gives depth u true v → v.remaining < s.remaining) :
    Advancing depth fun taken : List α => (do
      let a ← item
      if ← more then return .inl (a :: taken)
      else return .inr (a :: taken).reverse : Action (List α ⊕ List α)) := by
  intro x s y u h
  simp only [gives_bind] at h
  obtain ⟨a, v, hitem, again, w, hmore, h⟩ := h
  cases again with
  | false => simp at h
  | true =>
    simp only [if_true, gives_pure] at h
    obtain ⟨-, rfl⟩ := h
    exact hadvancing s a v _ hitem hmore

theorem gives_separated_iff
    {depth : Nat} {item : Action α} {more : Action Bool}
    (hadvancing : ∀ s a u v,
      item.Gives depth s a u → more.Gives depth u true v → v.remaining < s.remaining)
    {s t : State} {items : List α} :
    (separated item more).Gives depth s items t ↔ Items depth item more s items t := by
  refine ⟨items_of_gives, fun h => ?_⟩
  unfold separated
  rw [gives_turns_iff (advancing_separated hadvancing)]
  suffices hgeneral : ∀ taken : List α, Turns depth _ taken s (taken.reverse ++ items) t
    from hgeneral []
  induction h with
  | @last s t u a hitem hmore =>
    intro taken
    refine .last ?_
    simp only [gives_bind]
    exact ⟨a, u, hitem, false, t, hmore, by simp⟩
  | @cons s t u v a others hitem hmore hrest ih =>
    intro taken
    refine .more (y := a :: taken) (u := v) ?_ ?_
    · simp only [gives_bind]
      exact ⟨a, u, hitem, true, v, hmore, by simp⟩
    · simpa using ih (a :: taken)

end Action

end Compilation
end Oberon
