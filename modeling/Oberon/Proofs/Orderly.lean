import Oberon.Proofs.Scoping

/-!
# Runs in good order

Every moment of a compilation is in good order: the table has its three layers, and an index that is
asked for is in use.

**Steady actions** leave the entries of the table as they are (`honors_steady`). **Declaring
actions** add entries to the scope that they stand in, and a procedure leaves the scope around it as
it was but for its own entry.
-/

namespace Oberon
namespace Compilation

open Oberon.Compilation.Action

/-- The entries that signatures may be entered for, with their export mark. -/
abbrev Backfill := Nat → Bool → State → Prop

/--
An index that a request is made with is in use; types are entered for names of the innermost scope
only.
-/
def Live (backfill : Backfill) : Option Ask → State → Prop
  | some ⟨_, .symbol index⟩, u => index < u.symbols.size
  | some ⟨_, .nameOf index⟩, u => index < u.symbols.size
  | some ⟨_, .resolve index⟩, u => index < u.symbols.size
  | some ⟨_, .setType index _⟩, u => u.scope.floor ≤ index ∧ index < u.symbols.size
  | some ⟨_, .setSignature index exported _ _⟩, u =>
    index < u.symbols.size ∧ backfill index exported u
  | _, _ => True

/-- All moments are in good order; a halt is no fault, and leaves the scope in good order. -/
def orderly
    (backfill : Backfill) (owner : Scope.Owner) (outer : List (String × Symbol.Kind)) :
    Terms where
  moment moment u := u.Orderly ∧ Live backfill moment u
  halt halt t := (∃ inner, t.Scoped owner outer inner) ∧ ∀ fault, halt ≠ .fault fault

section Scoped

variable
  {α β σ : Type} {backfill : Backfill} {owner : Scope.Owner}
  {outer inner : List (String × Symbol.Kind)} {depth : Nat}
  {s t : State}

theorem State.Scoped.moment (h : s.Scoped owner outer inner) :
    (orderly backfill owner outer).moment none s :=
  ⟨⟨owner, outer, inner, h⟩, trivial⟩

theorem State.Scoped.halt
    {halt : Halt} (h : s.Scoped owner outer inner) (hhalt : ∀ fault, halt ≠ .fault fault) :
    (orderly backfill owner outer).halt halt s :=
  ⟨⟨inner, h⟩, hhalt⟩

/-! ### Requests -/

theorem honors_request
    {request : Request α}
    {Q : α → State → Prop}
    (hlive : ∀ s, s.Scoped owner outer inner → Live backfill (some ⟨α, request⟩) s)
    (hgives : ∀ s t a, s.Scoped owner outer inner → request.perform s = .ok a t →
      (∃ inner, t.Scoped owner outer inner) ∧ Q a t)
    (hhalt : ∀ s t halt, s.Scoped owner outer inner → request.perform s = .error halt t →
      t.Scoped owner outer inner ∧ ∀ fault, halt ≠ .fault fault) :
    Honors (orderly backfill owner outer) depth (State.Scoped · owner outer inner)
      (ask request done) Q := by
  refine .ask (fun s hs => ⟨⟨_, _, _, hs⟩, hlive s hs⟩) ?_ ?_
  · intro s t a hs hperform
    obtain ⟨⟨inner', ht⟩, hQ⟩ := hgives s t a hs hperform
    exact ⟨ht.moment, hQ⟩
  · intro s t halt hs hperform
    obtain ⟨ht, hfault⟩ := hhalt s t halt hs hperform
    exact ht.halt hfault

/-- The outcome of a request that touches neither the current token nor the declared names. -/
def Harmless (s : State) : EStateM.Result Halt State α → Prop
  | .ok _ t => t.token = s.token ∧ t.symbols = s.symbols ∧ t.scope = s.scope
  | .error halt t => t = s ∧ ∀ fault, halt ≠ .fault fault

theorem honors_harmless
    {request : Request α}
    (hlive : ∀ s, Live backfill (some ⟨α, request⟩) s)
    (h : ∀ s, Harmless s (request.perform s)) :
    Honors (orderly backfill owner outer) depth (State.Scoped · owner outer inner)
      (ask request done) fun _ => (State.Scoped · owner outer inner) := by
  refine honors_request (fun s _ => hlive s) ?_ ?_
  · intro s t a hs hperform
    have hframe := h s
    rw [hperform] at hframe
    have ht := hs.of_eq hframe.1 hframe.2.1 hframe.2.2
    exact ⟨⟨inner, ht⟩, ht⟩
  · intro s t halt hs hperform
    have hframe := h s
    rw [hperform] at hframe
    exact ⟨hframe.1 ▸ hs, hframe.2⟩

theorem harmless_ofTypes (s : State) (answer : Except TypeError α) :
    Harmless s (Request.ofTypes answer s) := by
  cases answer with
  | ok a => exact ⟨rfl, rfl, rfl⟩
  | error e => exact ⟨rfl, nofun⟩

theorem honors_take :
    Honors (orderly backfill owner outer) depth (State.Scoped · owner outer inner) take
      fun _ => (State.Scoped · owner outer inner) := by
  refine honors_request (fun _ _ => trivial) ?_ ?_
  · intro s t a hs hperform
    obtain ⟨token, cursor, hnext, rfl⟩ := Request.takeToken_eq_ok_iff.1 hperform
    rw [hs.next_eq] at hnext
    have ht : State.Scoped { s with cursor, token } owner outer inner :=
      ⟨Cursor.classified_of_next_reserved hnext, hs.symbols, hs.encloses, hs.declared, hs.owner,
        hs.floor, hs.result⟩
    exact ⟨⟨inner, ht⟩, ht⟩
  · intro s t halt hs hperform
    obtain rfl := Request.takeToken_error hperform
    refine ⟨hs.of_eq rfl rfl rfl, ?_⟩
    rintro fault rfl
    change Request.takeToken s = _ at hperform
    unfold Request.takeToken at hperform
    rw [hs.next_eq] at hperform
    split at hperform
    · cases hperform
    · cases hperform
    · rename_i hnext
      exact Cursor.next_reserved_ne_fault hnext

theorem honors_scope :
    Honors (orderly backfill owner outer) depth (State.Scoped · owner outer inner) Action.scope
      fun scope t => (scope.owner = owner ∧ scope.floor = outer.length) ∧
      t.Scoped owner outer inner := by
  have hscope :=
    @honors_harmless _ backfill owner outer inner depth .scope (fun _ => trivial) fun _ =>
      ⟨rfl, rfl, rfl⟩
  refine hscope.also ?_
  intro s t scope hs hgives
  obtain ⟨rfl, -⟩ := (gives_scope scope).1 hgives
  exact ⟨hs.owner, hs.floor⟩

/-- A question to the table that it answers. -/
theorem honors_ofTable
    {request : Request α}
    {Q : α → Prop}
    (question : SymbolTable → Except Fault α)
    (hperform : ∀ s, request.perform s = Request.ofTable (question s.symbols) s)
    (hlive : ∀ s, s.Scoped owner outer inner → Live backfill (some ⟨α, request⟩) s)
    (hanswer : ∀ s : State, s.Scoped owner outer inner → ∃ a, question s.symbols = .ok a ∧ Q a) :
    Honors (orderly backfill owner outer) depth (State.Scoped · owner outer inner)
      (ask request done) fun a t => Q a ∧ t.Scoped owner outer inner := by
  have hanswered : ∀ s, s.Scoped owner outer inner → ∃ a, request.perform s = .ok a s ∧ Q a := by
    intro s hs
    obtain ⟨a, ha, hQ⟩ := hanswer s hs
    exact ⟨a, by rw [hperform, ha]; rfl, hQ⟩
  refine honors_request hlive ?_ ?_
  · intro s t a hs hok
    obtain ⟨b, hb, hQ⟩ := hanswered s hs
    rw [hb] at hok
    cases hok
    exact ⟨⟨inner, hs⟩, hQ, hs⟩
  · intro s t halt hs herror
    obtain ⟨b, hb, -⟩ := hanswered s hs
    rw [hb] at herror
    cases herror

theorem honors_find (name : String) :
    Honors (orderly backfill owner outer) depth (State.Scoped · owner outer inner) (find name)
      fun found t => SymbolTable.Newest (outer ++ inner) name found ∧ t.Scoped owner outer inner :=
  honors_ofTable (fun t => t.find name) (fun _ => rfl) (fun _ _ => trivial)
    fun _ hs => hs.symbols.exists_find name

variable {index : Nat} {name : String} {kind : Symbol.Kind}

theorem State.Scoped.lt_size
    (h : s.Scoped owner outer inner)
    (hindex : (outer ++ inner)[index]? = some (name, kind)) :
    index < s.symbols.size := by
  rw [h.size_eq]
  exact (List.getElem?_eq_some_iff.1 hindex).1

theorem honors_symbol (hindex : (outer ++ inner)[index]? = some (name, kind)) :
    Honors (orderly backfill owner outer) depth (State.Scoped · owner outer inner) (symbol index)
      fun symbol t => symbol.kind.bare = kind ∧ t.Scoped owner outer inner :=
  honors_ofTable (fun t => t.get index) (fun _ => rfl) (fun _ hs => hs.lt_size hindex)
    fun _ hs => hs.symbols.exists_get hindex

theorem honors_nameOf (hindex : (outer ++ inner)[index]? = some (name, kind)) :
    Honors (orderly backfill owner outer) depth (State.Scoped · owner outer inner) (nameOf index)
      fun found t => found = name ∧ t.Scoped owner outer inner :=
  honors_ofTable (fun t => t.name index) (fun _ => rfl) (fun _ hs => hs.lt_size hindex)
    fun _ hs => ⟨name, hs.symbols.name_eq hindex, rfl⟩

theorem honors_resolve (hindex : (outer ++ inner)[index]? = some (name, kind)) :
    Honors (orderly backfill owner outer) depth (State.Scoped · owner outer inner) (resolve index)
      fun target t => (∃ real kind, (outer ++ inner)[target]? = some (real, kind)) ∧
      t.Scoped owner outer inner := by
  refine honors_ofTable (fun t => t.resolve index) (fun _ => rfl) (fun _ hs => hs.lt_size hindex) ?_
  intro s hs
  obtain ⟨symbol, hget, hkind⟩ := hs.symbols.exists_get hindex
  rw [SymbolTable.resolve, hget]
  cases hcase : symbol.kind with
  | aliasOf target =>
    rw [hcase] at hkind
    obtain ⟨-, real, hreal⟩ := hs.alias_spec (hkind ▸ hindex)
    exact ⟨target, by simp [hcase], real, _, hreal⟩
  | _ => exact ⟨index, by simp [hcase], name, kind, hindex⟩

/-! ### Tokens and names -/

theorem orderly_halt_closeCapture
    {halt : Halt} (s : State) (h : (orderly backfill owner outer).halt halt s) :
    (orderly backfill owner outer).halt halt { s with output := s.output.closeCapture } := by
  obtain ⟨⟨inner, hs⟩, hfault⟩ := h
  exact ⟨⟨inner, hs.of_eq rfl rfl rfl⟩, hfault⟩

/-- Where the atoms stay in a scope, what is made of them does. -/
theorem MadeOf.honors_scoped
    {atoms : Atoms} {action : Action α} (h : MadeOf atoms action)
    (hatom : ∀ (β : Type) (x : Action β), atoms β x →
      Honors (orderly backfill owner outer) depth (State.Scoped · owner outer inner) x
        fun _ => (State.Scoped · owner outer inner)) :
    Honors (orderly backfill owner outer) depth (State.Scoped · owner outer inner) action
      fun _ => (State.Scoped · owner outer inner) :=
  MadeOf.honors hatom (fun _ hs => hs.moment) (fun _ _ _ hs => hs.halt nofun)
    (fun _ hs => hs.halt nofun)
    (fun _ hs => hs.of_eq rfl rfl rfl) (fun _ hs => hs.of_eq rfl rfl rfl)
      (fun _ => orderly_halt_closeCapture) action

theorem honors_token (action : Action α) [h : MadeOf tokenAtoms action] :
    Honors (orderly backfill owner outer) depth (State.Scoped · owner outer inner) action
      fun _ => (State.Scoped · owner outer inner) := by
  refine h.honors_scoped ?_
  intro β x hx
  cases hx with
  | look => exact honors_harmless (fun _ => trivial) fun _ => ⟨rfl, rfl, rfl⟩
  | take => exact honors_take

theorem honors_identifier :
    Honors (orderly backfill owner outer) depth (State.Scoped · owner outer inner) identifier
      fun name t => Keyword.ofSpelling? name = none ∧ t.Scoped owner outer inner := by
  refine (honors_token identifier).also ?_
  intro s t name hs hgives
  rw [gives_identifier] at hgives
  obtain ⟨hkind, rfl, -⟩ := hgives
  exact hs.token hkind

theorem honors_pure (a : α) :
    Honors (orderly backfill owner outer) depth (State.Scoped · owner outer inner) (pure a)
      fun _ => (State.Scoped · owner outer inner) :=
  .pure (fun _ hs => hs.moment) fun _ hs => hs

theorem honors_reject (diagnostic : Diagnostic) {Q : α → State → Prop} :
    Honors (orderly backfill owner outer) depth (State.Scoped · owner outer inner)
      (reject diagnostic) Q :=
  .reject (fun _ hs => hs.moment) fun _ hs => hs.halt nofun

theorem honors_requireFresh (name : String) :
    Honors (orderly backfill owner outer) depth (State.Scoped · owner outer inner)
      (requireFresh name) fun _ t => name ∉ inner.map Prod.fst ∧ t.Scoped owner outer inner := by
  refine (honors_find name).bind fun found => .given fun hnewest => ?_
  cases found with
  | none =>
    refine .pure (fun _ hs => hs.moment) fun _ hs => ⟨fun hmem => ?_, hs⟩
    obtain ⟨entry, hentry, rfl⟩ := List.mem_map.1 hmem
    exact hnewest entry (List.mem_append_right _ hentry) rfl
  | some index =>
    refine honors_scope.bind fun scope => .given fun hscope => ?_
    refine .ite (fun _ => honors_reject _) fun hbelow => .pure (fun _ hs => hs.moment) fun _ hs =>
      ⟨fun hmem => ?_, hs⟩
    -- Every entry of the scope lies behind the one that was found.
    obtain ⟨entry, hentry, rfl⟩ := List.mem_map.1 hmem
    obtain ⟨k, hk⟩ := List.mem_iff_getElem?.1 hentry
    refine hnewest.2 (outer.length + k) entry (by omega) ?_ rfl
    rw [List.getElem?_append_right (by omega), Nat.add_sub_cancel_left, hk]

theorem honors_memberOf (hindex : (outer ++ inner)[index]? = some (name, kind)) :
    Honors (orderly backfill owner outer) depth (State.Scoped · owner outer inner) (memberOf index)
      fun _ => (State.Scoped · owner outer inner) := by
  refine (honors_nameOf hindex).bind fun owner => .given fun _ => honors_take.bind fun _ => ?_
  exact (honors_token _).bind fun _ => (honors_token _).bind fun _ => honors_pure _

theorem honors_designate (hindex : (outer ++ inner)[index]? = some (name, kind)) :
    Honors (orderly backfill owner outer) depth (State.Scoped · owner outer inner)
      (designate index name) fun _ => (State.Scoped · owner outer inner) := by
  refine (honors_symbol hindex).bind fun symbol => .given fun _ => ?_
  split
  · exact honors_pure _
  · exact honors_pure _
  · exact honors_pure _
  · exact honors_pure _
  · exact honors_reject _

theorem honors_moduleName :
    Honors (orderly backfill owner outer) depth (State.Scoped · owner outer inner) moduleName
      fun _ => (State.Scoped · owner outer inner) :=
  honors_harmless (fun _ => trivial) fun _ => ⟨rfl, rfl, rfl⟩

theorem honors_designatorName :
    Honors (orderly backfill owner outer) depth (State.Scoped · owner outer inner) designatorName
      fun _ => (State.Scoped · owner outer inner) := by
  refine (honors_token look).bind fun looked => ?_
  obtain ⟨kind, name⟩ := looked
  refine .ite (fun _ => ?_) fun _ => honors_reject (.identifierExpected (kind.found name))
  refine (honors_find name).bind fun found => .given fun hfound => ?_
  cases found with
  | none => exact honors_reject _
  | some index =>
    obtain ⟨kind, hindex⟩ := hfound.1
    refine (honors_resolve hindex).bind fun target => .given fun htarget => ?_
    obtain ⟨real, kind, htarget⟩ := htarget
    refine honors_take.bind fun _ => (honors_symbol htarget).bind fun symbol => .given fun _ => ?_
    split
    · refine (honors_token _).bind fun _ => (honors_token identifier).bind fun member => ?_
      refine (honors_find member).bind fun found => .given fun hfound => ?_
      cases found with
      | none => exact honors_reject _
      | some entry =>
        obtain ⟨kind, hentry⟩ := hfound.1
        exact honors_moduleName.bind fun _ => (honors_designate hentry).bind fun _ => honors_pure _
    · refine (honors_nameOf htarget).bind fun _ => .given fun _ => (honors_token _).bind fun _ => ?_
      exact (honors_token _).bind fun _ => honors_pure _
    · exact honors_moduleName.bind fun _ => (honors_designate hindex).bind fun _ => honors_pure _

theorem honors_basicType :
    Honors (orderly backfill owner outer) depth (State.Scoped · owner outer inner) basicType
      fun _ => (State.Scoped · owner outer inner) := by
  refine (honors_token kind).bind fun next => ?_
  split
  · split
    · exact honors_take.bind fun _ => honors_pure _
    · exact (honors_token _).bind fun _ => honors_reject _
  · refine (honors_token look).bind fun looked => ?_
    obtain ⟨_, name⟩ := looked
    refine (honors_find name).bind fun found => .given fun hfound => ?_
    cases found with
    | none => exact honors_take.bind fun _ => honors_pure _
    | some index =>
      obtain ⟨kind, hindex⟩ := hfound.1
      refine (honors_resolve hindex).bind fun target => .given fun htarget => ?_
      obtain ⟨real, kind, htarget⟩ := htarget
      refine (honors_symbol htarget).bind fun symbol => .given fun _ => ?_
      split
      · exact (honors_memberOf htarget).bind fun _ => honors_pure _
      · exact (honors_memberOf htarget).bind fun _ => honors_pure _
      · exact honors_reject _
  · exact (honors_token _).bind fun _ => honors_reject _

theorem honors_arraySize :
    Honors (orderly backfill owner outer) depth (State.Scoped · owner outer inner) arraySize
      fun _ => (State.Scoped · owner outer inner) := by
  refine (honors_token kind).bind fun next => ?_
  split
  · exact (honors_token _).bind fun _ => honors_pure _
  · refine (honors_token look).bind fun looked => ?_
    obtain ⟨_, name⟩ := looked
    refine (honors_find name).bind fun found => .given fun hfound => ?_
    cases found with
    | none => exact honors_reject _
    | some index =>
      obtain ⟨kind, hindex⟩ := hfound.1
      refine (honors_resolve hindex).bind fun target => .given fun htarget => ?_
      obtain ⟨real, kind, htarget⟩ := htarget
      refine (honors_symbol htarget).bind fun symbol => .given fun _ => ?_
      split
      · exact (honors_memberOf htarget).bind fun _ => honors_pure _
      · exact (honors_memberOf htarget).bind fun _ => honors_pure _
      · exact honors_take.bind fun _ => honors_moduleName.bind fun _ => honors_pure _
      · exact honors_reject _
  · exact honors_reject _

/-! ### Steady actions -/

theorem honors_readingAtom
    (hrules : ∀ {β : Type} (rule : Rule β),
      Honors (orderly backfill owner outer) depth (State.Scoped · owner outer inner)
        (call rule done) fun _ => (State.Scoped · owner outer inner))
    {action : Action α}
    (h : readingAtoms α action) :
    Honors (orderly backfill owner outer) depth (State.Scoped · owner outer inner) action fun _ =>
      (State.Scoped · owner outer inner) := by
  cases h with
  | token h =>
    have := MadeOf.atom h
    exact honors_token action
  | rule rule => exact hrules rule
  | requireFresh name => exact (honors_requireFresh name).weaken (fun _ hs => hs) fun _ _ ht => ht.2
  | designatorName => exact honors_designatorName
  | basicType => exact honors_basicType
  | arraySize => exact honors_arraySize
  | requireCompatible a b => exact honors_harmless (fun _ => trivial) fun s => harmless_ofTypes s _
  | element type => exact honors_harmless (fun _ => trivial) fun s => harmless_ofTypes s _
  | write text => exact honors_harmless (fun _ => trivial) fun _ => ⟨rfl, rfl, rfl⟩
  | moduleName => exact honors_moduleName
  | scope => exact honors_harmless (fun _ => trivial) fun _ => ⟨rfl, rfl, rfl⟩
  | form type => exact honors_harmless (fun _ => trivial) fun _ => ⟨rfl, rfl, rfl⟩

/-- Actions that declare nothing leave the entries of their scope as they are. -/
theorem honors_steady (action : Action α) [h : MadeOf steadyAtoms action] :
    Honors (orderly backfill owner outer) depth (State.Scoped · owner outer inner) action
      fun _ => (State.Scoped · owner outer inner) := by
  have hrules :=
    fun {β : Type} => MadeOf.honors_call (α := β)
      (fun rule => inferInstanceAs (MadeOf readingAtoms rule.action))
    (fun depth hrules β x hx => @honors_readingAtom β backfill owner outer inner depth hrules x hx)
    (fun _ hs => hs.moment) (fun _ _ _ hs => hs.halt nofun) (fun _ hs => hs.halt nofun)
    (fun _ hs => hs.of_eq rfl rfl rfl) (fun _ hs => hs.of_eq rfl rfl rfl)
      (fun _ => orderly_halt_closeCapture) depth
  refine h.honors_scoped ?_
  intro β x hx
  cases hx with
  | reading hx => exact honors_readingAtom hrules hx
  | publish text => exact honors_harmless (fun _ => trivial) fun _ => ⟨rfl, rfl, rfl⟩
  | addType shape => exact honors_harmless (fun _ => trivial) fun _ => ⟨rfl, rfl, rfl⟩

end Scoped

end Compilation
end Oberon
