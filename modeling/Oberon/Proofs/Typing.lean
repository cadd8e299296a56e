import Oberon.Proofs.Translation.Declaration

/-!
# Types in a compilation

Every type that a compilation remembers is one of its catalog, and the catalog is layered.

**Typed states.**  In a typed state the catalog is layered, and the types of the symbols, of the
parameters of procedures and of the result of the open procedure were given out.  Most requests
carry no type and keep a state typed (`State.Typed.of_ends`).

**Typing.**  `Typing least action Q` says of an action that starts in a typed state whose catalog
has grown out of `least`: all states on its way are typed, also the one in which it halts, and `Q`
holds of its result in the catalog at its end.  Types are passed on from where they are read to
where they are entered; in between the catalog only grows.
-/

namespace Oberon

/-- The types of the parameters in a signature. -/
def Symbol.Kind.parameterTypes : Symbol.Kind → List DataType
  | procedure _ parameters => parameters
  | _ => []

/-- The types that a symbol is entered with were given out. -/
def Symbol.TypedIn (c : TypeCatalog) (symbol : Symbol) : Prop :=
  c.Has symbol.type ∧ ∀ type ∈ symbol.kind.parameterTypes, c.Has type

theorem Symbol.TypedIn.mono
    {c d : TypeCatalog}
    {symbol : Symbol}
    (h : symbol.TypedIn d)
    (hgrown : c.Extends d) :
    symbol.TypedIn c :=
  ⟨hgrown.has h.1, fun type htype => hgrown.has (h.2 type htype)⟩

namespace SymbolTable

variable {t u : SymbolTable} {symbol : Symbol}

theorem mem_of_add
    {name : String}
    {kind : Symbol.Kind}
    {type : DataType}
    {index : Nat}
    (h : t.add name kind type = .ok (index, u))
    (hmem : symbol ∈ u.entries) :
    symbol ∈ t.entries ∨ symbol.kind = kind ∧ symbol.type = type := by
  obtain ⟨-, rfl⟩ := eq_push_of_add h
  obtain hmem | rfl := Array.mem_push.1 hmem
  · exact Or.inl hmem
  · exact Or.inr ⟨rfl, rfl⟩

theorem mem_of_update
    {index : Nat}
    {change : Symbol → Symbol}
    (h : t.update index change = .ok u)
    (hmem : symbol ∈ u.entries) :
    ∃ old ∈ t.entries, symbol = old ∨ symbol = change old := by
  unfold update at h
  split at h
  · cases h
    obtain ⟨i, hi, rfl⟩ := Array.mem_iff_getElem.1 hmem
    simp only [Array.size_modify] at hi
    refine ⟨t.entries[i], Array.getElem_mem hi, ?_⟩
    rw [Array.getElem_modify]
    split
    · exact Or.inr rfl
    · exact Or.inl rfl
  · cases h

end SymbolTable

namespace Compilation

open Oberon.Grammar
open Oberon.Compilation.Action

variable {α β : Type} {depth : Nat} {s t : State}

/-- Every type that the state remembers was given out, and the catalog is layered. -/
structure State.Typed (s : State) : Prop where
  layered : s.types.Layered
  symbols : ∀ symbol ∈ s.symbols.entries, symbol.TypedIn s.types
  result : s.types.Has s.scope.result

namespace State.Typed

theorem of_symbols
    (h : s.Typed)
    (htypes : t.types = s.types)
    (hsymbols : ∀ symbol ∈ t.symbols.entries, symbol.TypedIn s.types)
    (hresult : s.types.Has t.scope.result) :
    t.Typed := by
  refine ⟨?_, ?_, ?_⟩
  · rw [htypes]
    exact h.layered
  · rw [htypes]
    exact hsymbols
  · rw [htypes]
    exact hresult

theorem of_eq
    (h : s.Typed)
    (htypes : t.types = s.types)
    (hsymbols : t.symbols = s.symbols)
    (hscope : t.scope = s.scope) :
    t.Typed :=
  h.of_symbols htypes (hsymbols ▸ h.symbols) (hscope ▸ h.result)

/-- Changing an entry keeps a state typed if the types that are entered were given out. -/
theorem update
    {index : Nat} {change : Symbol → Symbol} {symbols : SymbolTable} (h : s.Typed)
    (hchange : ∀ symbol, symbol.TypedIn s.types → (change symbol).TypedIn s.types)
    (hupdate : s.symbols.update index change = .ok symbols) : State.Typed { s with symbols } := by
  refine h.of_symbols rfl (fun symbol hmem => ?_) h.result
  obtain ⟨old, hold, hsymbol⟩ := SymbolTable.mem_of_update hupdate hmem
  rcases hsymbol with rfl | rfl
  · exact h.symbols _ hold
  · exact hchange old (h.symbols old hold)

theorem enter (h : s.Typed) : s.entered.Typed :=
  h.of_symbols rfl h.symbols h.result

/-- A procedure scope is left for one without a result. -/
theorem leave (ht : t.Typed) :
    (endState (Action.leave s.symbols.mark s.scope.floor t)).Typed := by
  have hkept : ∀ symbol ∈ t.symbols.entries.take s.symbols.mark.entries,
      symbol.TypedIn t.types := by
    intro symbol hmem
    obtain ⟨index, _, rfl⟩ := Array.mem_extract_iff_getElem.1 hmem
    exact ht.symbols _ (Array.getElem_mem _)
  unfold Action.leave SymbolTable.release
  split <;> rename_i hrelease
  · split at hrelease
    · cases hrelease
      exact ht.of_symbols rfl hkept ht.layered.has_unknown
    · split at hrelease
      · cases hrelease
        exact ht.of_symbols rfl hkept ht.layered.has_unknown
      · cases hrelease
  · split at hrelease
    · cases hrelease
    · split at hrelease
      · cases hrelease
      · cases hrelease
        exact ht.of_symbols rfl hkept ht.result

end State.Typed

/-! ### Requests without types -/

/-- The requests that bring no types, or only built-in ones. -/
def typeless : Requests
  | _, .declare _ kind type => type.isBuiltin = true ∧ kind.parameterTypes = []
  | _, .setType _ _ => False
  | _, .setSignature _ _ _ _ => False
  | _, .addType _ => False
  | _, _ => True

theorem State.Typed.of_ends
    {request : Request β}
    (h : s.Typed)
    (hrequest : typeless β request)
    (hends : request.Ends s t) :
    t.Typed := by
  cases hends with
  | unchanged => exact h
  | take => exact h.of_eq rfl rfl rfl
  | write text => exact h.of_eq rfl rfl rfl
  | publish text => exact h.of_eq rfl rfl rfl
  | nameModule name => exact h.of_eq rfl rfl rfl
  | declare hadd =>
    refine h.of_symbols rfl (fun symbol hmem => ?_) h.result
    obtain hmem | ⟨rfl, rfl⟩ := SymbolTable.mem_of_add hadd hmem
    · exact h.symbols symbol hmem
    · exact ⟨h.layered.has_of_isBuiltin hrequest.1, by simp [hrequest.2]⟩
  | addType shape => exact hrequest.elim
  | setType hset => exact hrequest.elim
  | setSignature hset => exact hrequest.elim

section Typeless

set_option synthInstance.maxSize 4096

instance
    (priority := low) (action : Action α) [h : Uses reading action] :
    Uses typeless action := by
  refine ⟨h.asksOnly.mono fun _ request hreading => ?_⟩
  cases request with
  | declare name kind type => exact hreading.elim
  | setType index type => exact hreading
  | setSignature index exported parameters result => exact hreading
  | addType shape => exact hreading
  | _ => trivial

instance (text : String) : Uses typeless (publish text) := .ask trivial

instance (name : String) : Uses typeless (ask (.nameModule name) done) := .ask trivial

instance (name : String) : Uses typeless (declare name .thisModule .unknown) := .ask ⟨rfl, rfl⟩

instance (name : String) : Uses typeless (declare name .imported .unknown) := .ask ⟨rfl, rfl⟩

instance (name : String) (target : Nat) :
    Uses typeless (declare name (.aliasOf target) .unknown) :=
  .ask ⟨rfl, rfl⟩

instance (name : String) (exported : Bool) :
    Uses typeless (declare name (.variable exported) .unknown) :=
  .ask ⟨rfl, rfl⟩

instance (name : String) : Uses typeless (declare name .parameter .unknown) := .ask ⟨rfl, rfl⟩

instance (name : String) (exported : Bool) :
    Uses typeless (declare name (.procedure exported []) .unknown) :=
  .ask ⟨rfl, rfl⟩

instance : Uses typeless importEntry := by unfold importEntry; infer_instance

instance : Uses typeless importList := by unfold importList; infer_instance

instance : Uses typeless variableName := by unfold variableName; infer_instance

instance : Uses typeless parameterName := by unfold parameterName; infer_instance

instance : Uses typeless moduleHead := by unfold moduleHead; infer_instance

instance : Uses typeless moduleBody := by unfold moduleBody; infer_instance

instance : Uses typeless moduleEnd := by unfold moduleEnd; infer_instance

end Typeless

/-! ### Typed runs -/

/-- All states of a run are typed, also the one in which it halts. -/
def typed : Terms where
  moment _ s := s.Typed
  halt _ s := s.Typed

theorem honors_typed_request
    {request : Request α} (h : ∀ s : State, s.Typed → (endState (request.perform s)).Typed) :
    Honors typed depth State.Typed (ask request done) fun _ => State.Typed := by
  refine .ask (fun _ hs => hs) ?_ ?_
  · intro s t a hs hperform
    have ht := h s hs
    rw [hperform] at ht
    exact ⟨ht, ht⟩
  · intro s t halt hs hperform
    have ht := h s hs
    rwa [hperform] at ht

theorem honors_typed_procedure
    {body : Action α} (h : Honors typed depth State.Typed body fun _ => State.Typed) :
    Honors typed depth State.Typed (inProcedure body done) fun _ => State.Typed := by
  have hgives : ∀ {s t : State} {a : α}, s.Typed →
      (inProcedure body done).Gives depth s a t → t.Typed := by
    intro s t a hs hgives
    obtain ⟨u, symbols, hbody, hrelease, rfl⟩ := (gives_inProcedure body a).1 hgives
    have hleave := State.Typed.leave (s := s) (h.gives hs.enter hbody)
    simpa only [leave, hrelease, endState] using hleave
  refine ⟨?_, hgives, ?_⟩
  · intro s u moment hs hcomes
    cases hcomes with
    | here => exact hs
    | enclosed hinside => exact h.comes hs.enter hinside
    | pastProcedure hpast hnext =>
      cases hnext
      exact hgives hs hpast
  · intro s t halt hs hhalts
    obtain ⟨a, u, hbody, hleave⟩ | ⟨inner, u, hbody, ⟨a, hleave, -⟩ | hleave⟩ :=
      halts_inProcedure hhalts
    · have ht := State.Typed.leave (s := s) (h.gives hs.enter hbody)
      rwa [hleave] at ht
    · have ht := State.Typed.leave (s := s) (h.halts hs.enter hbody)
      rwa [hleave] at ht
    · have ht := State.Typed.leave (s := s) (h.halts hs.enter hbody)
      rwa [hleave] at ht

theorem honors_typed_of_asksOnly
    (hrules : ∀ {β : Type} (rule : Rule β),
      Honors typed depth State.Typed (call rule done) fun _ => State.Typed)
    (action : Action α) :
    action.AsksOnly typeless → Honors typed depth State.Typed action fun _ => State.Typed := by
  induction action with
  | done a => exact fun _ => .pure (fun _ hs => hs) fun _ hs => hs
  | reject diagnostic => exact fun _ => .reject (fun _ hs => hs) fun _ hs => hs
  | ask request next ih =>
    rintro ⟨hrequest, hnext⟩
    exact (honors_typed_request fun s hs => hs.of_ends hrequest (request.ends_perform s)).bind
      fun b => ih b (hnext b)
  | capture body next hbody ih =>
    rintro ⟨huses, hnext⟩
    have htext : Honors typed depth State.Typed (textOf body) fun _ => State.Typed := by
      refine (hbody huses).textOf (fun s hs => ⟨hs, hs.of_eq rfl rfl rfl⟩) ?_ ?_
      · exact fun _ s hs => ⟨hs.of_eq rfl rfl rfl, hs.of_eq rfl rfl rfl⟩
      · exact fun _ s hs => State.Typed.of_eq hs rfl rfl rfl
    exact htext.bind fun b => ih b (hnext b)
  | inProcedure body next hbody ih =>
    rintro ⟨-, huses, hnext⟩
    exact (honors_typed_procedure (hbody huses)).bind fun b => ih b (hnext b)
  | loop turn start next hturn ih =>
    rintro ⟨huses, hnext⟩
    have hloop : Honors typed depth State.Typed (turns turn start) fun _ => State.Typed := by
      refine .turns (R := fun _ => State.Typed) (fun x => ?_) (fun _ hs => hs) (fun _ _ hs => hs)
        fun _ _ hs => hs
      refine (hturn x (huses x)).weaken (fun _ hs => hs) ?_
      rintro (y | b) t ht <;> exact ht
    exact hloop.bind fun b => ih b (hnext b)
  | call rule next ih =>
    intro hnext
    exact (hrules rule).bind fun b => ih b (hnext b)

theorem honors_typed_call (depth : Nat) :
    ∀ {β : Type} (rule : Rule β),
      Honors typed depth State.Typed (call rule done) fun _ => State.Typed := by
  induction depth with
  | zero => exact fun rule => .call_zero (fun _ hs => hs) fun _ hs => hs
  | succ depth ih =>
    intro β rule
    have huses : Uses typeless rule.action := inferInstance
    exact .call_succ (fun _ hs => hs)
      (fun _ _ hs => hs) (honors_typed_of_asksOnly ih rule.action huses.asksOnly)

/-- All states of an action without types are typed. -/
theorem honors_typeless (action : Action α) [h : Uses typeless action] :
    Honors typed depth State.Typed action fun _ => State.Typed :=
  honors_typed_of_asksOnly (honors_typed_call depth) action h.asksOnly

/-! ### Typing -/

/--
From a typed state whose catalog has grown out of `least`, all states of the action are typed, and
if it succeeds its result has `Q` in the catalog at its end.
-/
def Typing
    (least : TypeCatalog)
    (depth : Nat)
    (action : Action α)
    (Q : TypeCatalog → α → Prop) :
    Prop :=
  Honors typed depth (fun s => s.types.Extends least ∧ s.Typed) action
    fun a t => Q t.types a ∧ t.types.Extends least ∧ t.Typed

namespace Typing

variable {least : TypeCatalog} {Q : TypeCatalog → α → Prop} {R : TypeCatalog → β → Prop}

/-- From a typed state on, its own catalog may be taken as the least one. -/
theorem onward
    {action : Action α}
    (h : Typing s.types depth action Q)
    (hgrown : s.types.Extends least)
    (hs : s.Typed) :
    Honors typed depth (fun u => u = s) action fun a t => t.types.Extends s.types ∧ Q t.types a ∧
      t.types.Extends least ∧ t.Typed := by
  refine Honors.weaken h ?_ ?_
  · rintro _ rfl
    exact ⟨.refl _, hs⟩
  · rintro a t ⟨hQ, ht, htyped⟩
    exact ⟨ht, hQ, ht.trans hgrown, htyped⟩

theorem bind
    {x : Action α}
    {f : α → Action β}
    (hx : Typing least depth x Q)
    (hf : ∀ a c, c.Extends least → Q c a → Typing c depth (f a) R) :
    Typing least depth (x >>= f) R := by
  refine Honors.bind hx fun a => .of_each ?_
  rintro t ⟨hQ, hgrown, ht⟩
  exact ((hf a t.types hgrown hQ).onward hgrown ht).weaken (fun _ hu => hu) fun _ _ hu => hu.2

theorem pure {a : α} (h : ∀ c, c.Extends least → c.Layered → Q c a) :
    Typing least depth (Pure.pure a) Q :=
  Honors.pure (fun _ hs => hs.2) fun s hs => ⟨h s.types hs.1 hs.2.layered, hs⟩

theorem ask
    {request : Request α}
    (hrequest : ∀ s, s.types.Extends least → s.Typed → (endState (request.perform s)).Typed)
    (hQ : ∀ s t a, s.types.Extends least → s.Typed → request.perform s = .ok a t → Q t.types a) :
    Typing least depth (Action.ask request done) Q := by
  refine Honors.ask (fun _ hs => hs.2) ?_ ?_
  · intro s t a hs hperform
    have ht := hrequest s hs.1 hs.2
    have hgrown := (request.ends_perform s).types_extends
    rw [hperform] at ht hgrown
    exact ⟨ht, hQ s t a hs.1 hs.2 hperform, hgrown.trans hs.1, ht⟩
  · intro s t halt hs hperform
    have ht := hrequest s hs.1 hs.2
    rwa [hperform] at ht

theorem reject {diagnostic : Diagnostic} :
    Typing least depth (Action.reject diagnostic : Action α) Q :=
  Honors.reject (fun _ hs => hs.2) fun _ hs => hs.2

theorem ite
    {p : Prop}
    [Decidable p]
    {x y : Action α}
    (hx : p → Typing least depth x Q)
    (hy : ¬ p → Typing least depth y Q) :
    Typing least depth (if p then x else y) Q :=
  Honors.ite hx hy

theorem weaken
    {action : Action α} {Q' : TypeCatalog → α → Prop} (h : Typing least depth action Q)
    (hQ : ∀ c a, c.Layered → Q c a → Q' c a) : Typing least depth action Q' :=
  Honors.weaken h (fun _ hs => hs) fun a t ht => ⟨hQ t.types a ht.2.2.layered ht.1, ht.2⟩

/-- What keeps all states typed only has to be looked at where it succeeds. -/
theorem of_honors
    {action : Action α} (h : Honors typed depth State.Typed action fun _ => State.Typed)
    (hQ : ∀ s t a, s.types.Extends least → s.Typed → action.Gives depth s a t → Q t.types a) :
    Typing least depth action Q where
  comes hs := h.comes hs.2
  gives hs hgives := ⟨hQ _ _ _ hs.1 hs.2 hgives, (kept_types.gives hgives).trans hs.1,
    h.gives hs.2 hgives⟩
  halts hs := h.halts hs.2

theorem of_typeless (action : Action α) [Uses typeless action] :
    Typing least depth action fun _ _ => True :=
  of_honors (honors_typeless action) fun _ _ _ _ _ _ => trivial

theorem inProcedure
    {body : Action α} (h : ∀ c, Typing c depth body fun _ _ => True) :
    Typing least depth (Action.inProcedure body done) fun _ _ => True := by
  have hbody : Honors typed depth State.Typed body fun _ => State.Typed :=
    .of_each fun s hs => ((h s.types).onward (.refl _) hs).weaken (fun _ hu => hu)
      fun _ _ ht => ht.2.2.2
  exact of_honors (honors_typed_procedure hbody) fun _ _ _ _ _ _ => trivial

theorem repeatWhile
    {more : Action Bool}
    {body : Action Unit}
    (hmore : Typing least depth more fun _ _ => True)
    (hbody : Typing least depth body fun _ _ => True) :
    Typing least depth (repeatWhile more body) fun _ _ => True := by
  have hstart : ∀ s : State, s.types.Extends least ∧ s.Typed →
      True ∧ s.types.Extends least ∧ s.Typed :=
    fun s hs => ⟨trivial, hs⟩
  refine Honors.weaken (Honors.repeatWhile (P := fun s => s.types.Extends least ∧ s.Typed) ?_ ?_
    (fun _ hs => hs.2)
    fun _ hs => hs.2) (fun _ hs => hs) fun _ t ht => hstart t ht
  · exact Honors.weaken hmore (fun _ hs => hs) fun _ _ ht => ht.2
  · exact Honors.weaken hbody (fun _ hs => hs) fun _ _ ht => ht.2

/-- Items keep their property while the catalog grows by the later ones. -/
theorem separated
    {item : Action α}
    {more : Action Bool}
    (hmono : ∀ c d a, c.Extends d → Q d a → Q c a)
    (hitem : ∀ c, c.Extends least → Typing c depth item Q)
    (hmore : ∀ c, Typing c depth more fun _ _ => True) :
    Typing least depth (separated item more) fun c items => ∀ a ∈ items, Q c a := by
  refine Honors.weaken (Honors.separated
    (R := fun items s => (∀ a ∈ items, Q s.types a) ∧ s.types.Extends least ∧ s.Typed)
    (fun items => .of_each ?_)
    (fun items => .of_each ?_) (fun _ _ hs => hs.2.2) fun _ _ hs => hs.2.2) ?_ ?_
  · rintro s ⟨hitems, hgrown, hs⟩
    refine ((hitem s.types hgrown).onward hgrown hs).weaken (fun _ hu => hu) ?_
    rintro a t ⟨ht, hQ, htyped⟩
    refine ⟨fun b hb => ?_, htyped⟩
    obtain rfl | hb := List.mem_cons.1 hb
    · exact hQ
    · exact hmono _ _ b ht (hitems b hb)
  · rintro s ⟨hitems, hgrown, hs⟩
    refine ((hmore s.types).onward hgrown hs).weaken (fun _ hu => hu) ?_
    rintro again t ⟨ht, -, htyped⟩
    exact ⟨fun b hb => hmono _ _ b ht (hitems b hb), htyped⟩
  · exact fun s hs => ⟨by simp, hs⟩
  · exact fun items t ht => ⟨fun a ha => ht.1 a (List.mem_reverse.2 ha), ht.2⟩

theorem forM
    {f : α → Action Unit}
    {items : List α}
    (hitem : ∀ a ∈ items, ∀ c, c.Extends least → Typing c depth (f a) fun _ _ => True) :
    Typing least depth (items.forM f) fun _ _ => True := by
  induction items generalizing least with
  | nil => exact .pure fun _ _ _ => trivial
  | cons a items ih =>
    refine bind (hitem a List.mem_cons_self least (.refl _)) fun _ c hc _ => ?_
    exact ih fun b hb d hd => hitem b (List.mem_cons_of_mem a hb) d (hd.trans hc)

theorem mapM
    {f : α → Action β} {items : List α} (hmono : ∀ c d b, c.Extends d → R d b → R c b)
    (hitem : ∀ a ∈ items, ∀ c, c.Extends least → Typing c depth (f a) R) :
    Typing least depth (items.mapM f) fun c results => ∀ b ∈ results, R c b := by
  induction items generalizing least with
  | nil => exact .pure fun _ _ _ => by simp
  | cons a items ih =>
    rw [List.mapM_cons]
    refine bind (hitem a List.mem_cons_self least (.refl _)) fun b c hc hb => ?_
    refine bind (ih fun b hb d hd => hitem b (List.mem_cons_of_mem a hb) d (hd.trans hc))
      fun results d hd hresults => ?_
    refine .pure fun e he _ b' hb' => ?_
    obtain rfl | hb' := List.mem_cons.1 hb'
    · exact hmono e c _ (he.trans hd) hb
    · exact hmono e d _ he (hresults b' hb')

end Typing

end Compilation
end Oberon
