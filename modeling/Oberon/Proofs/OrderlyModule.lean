import Oberon.Proofs.Orderly

/-!
# Modules in good order

Declarations keep their scope in good order, from single names up to a whole module
(`honors_wholeModule`).
-/

namespace Oberon
namespace Compilation

open Oberon.Compilation.Action

variable
  {α : Type} {backfill : Backfill} {owner : Scope.Owner} {outer inner : List (String × Symbol.Kind)}
  {depth : Nat}

theorem Scope.Owner.Declares.bare {kind : Symbol.Kind} (h : owner.Declares kind) :
    kind.bare = kind := by
  cases kind with
  | procedure exported parameters =>
    cases owner with
    | module =>
      obtain rfl : parameters = [] := h
      rfl
    | procedure => exact h.elim
  | _ => rfl

/-! ### Single names -/

theorem honors_declare_of
    {name : String}
    {kind : Symbol.Kind}
    {type : DataType}
    (hdeclared : Declared owner (inner ++ [(name, kind)]))
    (hbare : kind.bare = kind) :
    Honors (orderly backfill owner outer) depth (State.Scoped · owner outer inner)
      (declare name kind type) fun index t => index = (outer ++ inner).length ∧
      t.Scoped owner outer (inner ++ [(name, kind)]) := by
  refine honors_request (fun _ _ => trivial) ?_ ?_
  · intro s t index hs hperform
    have hgives : (declare name kind type).Gives depth s index t := (gives_ask _ _).2 hperform
    obtain ⟨symbols, hadd, rfl⟩ := (gives_declare name kind type index).1 hgives
    obtain ⟨hindex, hshows⟩ := hs.symbols.add hadd
    rw [hbare, List.append_assoc] at hshows
    have ht : State.Scoped { s with symbols } owner outer (inner ++ [(name, kind)]) :=
      ⟨hs.token, hshows, hs.encloses, hdeclared, hs.owner, hs.floor, hs.result⟩
    exact ⟨⟨_, ht⟩, hindex, ht⟩
  · intro s t halt hs hperform
    change Request.declareSymbol name kind type s = _ at hperform
    unfold Request.declareSymbol at hperform
    split at hperform
    · cases hperform
    · cases hperform
      exact ⟨hs, nofun⟩

/-- A name that is new in its scope and not reserved becomes its last entry. -/
theorem honors_declare
    {name : String}
    {kind : Symbol.Kind}
    {type : DataType}
    (hfresh : name ∉ inner.map Prod.fst)
    (hname : Keyword.ofSpelling? name = none)
    (hkind : owner.Declares kind) :
    Honors (orderly backfill owner outer) depth (State.Scoped · owner outer inner)
      (declare name kind type) fun index t => index = (outer ++ inner).length ∧
      t.Scoped owner outer (inner ++ [(name, kind)]) := by
  refine .assume (fun _ hs => hs.declared) fun hdeclared => ?_
  exact honors_declare_of (.add hdeclared hfresh hname hkind) hkind.bare

/-- An entry in use can be changed. -/
theorem not_error_of_update
    {s t : State}
    {index : Nat}
    {change : Symbol → Symbol}
    {halt : Halt}
    (h : index < s.symbols.size) :
    Request.changeSymbols (fun t => t.update index change) s ≠ .error halt t := by
  simp [Request.changeSymbols, SymbolTable.update, h]

theorem honors_setType
    {index : Nat}
    {type : DataType}
    (hlow : outer.length ≤ index)
    (hhigh : index < (outer ++ inner).length) :
    Honors (orderly backfill owner outer) depth (State.Scoped · owner outer inner)
      (setType index type) fun _ => (State.Scoped · owner outer inner) := by
  refine honors_request (fun s hs => ⟨hs.floor ▸ hlow, hs.size_eq ▸ hhigh⟩) ?_ ?_
  · intro s t a hs hperform
    have hgives : (setType index type).Gives depth s a t := (gives_ask _ _).2 hperform
    obtain ⟨symbols, hset, rfl⟩ := (gives_setType index type a).1 hgives
    have ht : State.Scoped { s with symbols } owner outer inner :=
      ⟨hs.token, hs.symbols.setType hset, hs.encloses, hs.declared, hs.owner, hs.floor, hs.result⟩
    exact ⟨⟨_, ht⟩, ht⟩
  · intro s t halt hs hperform
    exact absurd hperform (not_error_of_update (hs.size_eq ▸ hhigh))

/-- A signature is entered, also as that of the scope, in procedures only. -/
theorem honors_setSignature
    {index : Nat} {name : String} {exported : Bool}
    {parameters : List DataType} {result : DataType}
    (hindex : (outer ++ inner)[index]? = some (name, .procedure exported []))
    (hbackfill : ∀ s, s.Scoped .procedure outer inner → backfill index exported s) :
    Honors (orderly backfill .procedure outer) depth (State.Scoped · .procedure outer inner)
      (ask (.setSignature index exported parameters result) done)
      fun _ => (State.Scoped · .procedure outer inner) := by
  refine honors_request (fun s hs => ⟨hs.lt_size hindex, hbackfill s hs⟩) ?_ ?_
  · intro s t a hs hperform
    have hgives :
        (ask (.setSignature index exported parameters result) done).Gives depth s a t :=
      (gives_ask _ _).2 hperform
    obtain ⟨symbols, hset, rfl⟩ :=
      (gives_setSignature index exported parameters result a).1 hgives
    have ht : State.Scoped { s with symbols, scope := { s.scope with result } }
        .procedure outer inner :=
      ⟨hs.token, hs.symbols.setSignature hindex hset rfl, hs.encloses, hs.declared, hs.owner,
        hs.floor, fun howner => by cases hs.owner.symm.trans howner⟩
    exact ⟨⟨_, ht⟩, ht⟩
  · intro s t halt hs hperform
    obtain herror | ⟨_, u, -, herror⟩ := (Effect.bind_eq_error_iff ..).1 hperform
    · exact absurd herror (not_error_of_update (hs.lt_size hindex))
    · cases herror

/-- A state in the scope, whatever the scope has declared by then. -/
def State.Inside (s : State) (owner : Scope.Owner) (outer : List (String × Symbol.Kind)) : Prop :=
  ∃ inner, s.Scoped owner outer inner

theorem State.Inside.moment {s : State} (h : s.Inside owner outer) :
    (orderly backfill owner outer).moment none s := by
  obtain ⟨inner, hs⟩ := h
  exact hs.moment

theorem State.Inside.exhausted {s : State} (h : s.Inside owner outer) :
    (orderly backfill owner outer).halt .exhausted s :=
  ⟨h, nofun⟩

/-- An action that declares nothing, as the last one. -/
theorem honors_inside (action : Action α) [MadeOf steadyAtoms action] :
    Honors (orderly backfill owner outer) depth (State.Scoped · owner outer inner) action
      fun _ => (State.Inside · owner outer) :=
  (honors_steady action).weaken (fun _ hs => hs) fun _ _ ht => ⟨inner, ht⟩

/-! ### Imports and constants -/

theorem honors_importEntry :
    Honors (orderly backfill .module outer) depth (State.Inside · .module outer) importEntry
      fun _ => (State.Inside · .module outer) := by
  have himported : Scope.Owner.module.Declares .imported := trivial
  refine .of_exists fun inner => ?_
  refine (honors_token (sees .identifier)).bind fun _ => .ite (fun _ => ?_) fun _ => honors_inside _
  refine honors_identifier.bind fun name => .given fun hname => ?_
  refine (honors_requireFresh name).bind fun _ => .given fun hfresh => ?_
  refine (honors_token _).bind fun _ => .ite (fun _ => ?_) fun _ => ?_
  · refine honors_identifier.bind fun real => .given fun hreal => ?_
    refine (honors_requireFresh real).bind fun _ => .given fun hfreshReal => ?_
    refine .assume (fun _ hs => hs.declared) fun hdeclared =>
      .assume (fun _ hs => hs.encloses) fun hencloses => ?_
    refine (honors_declare hfreshReal hreal himported).bind fun target => .given fun htarget => ?_
    have hboth : Declared .module (inner ++ [(real, .imported)] ++ [(name, .aliasOf target)]) := by
      obtain rfl : outer = reservedEntries := hencloses
      rw [htarget, List.length_append]
      exact .rename hdeclared hfresh hfreshReal hname hreal
    exact ((honors_declare_of hboth rfl).discard (fun _ _ ht => ht.2.moment)
      fun _ _ ht => ht.2).bind
      fun _ => honors_inside _
  · exact ((honors_declare hfresh hname himported).discard (fun _ _ ht => ht.2.moment)
      fun _ _ ht => ht.2).bind
      fun _ => honors_inside _

theorem honors_inside_steady (action : Action α) [MadeOf steadyAtoms action] :
    Honors (orderly backfill owner outer) depth (State.Inside · owner outer) action fun _ =>
      (State.Inside · owner outer) :=
  .of_exists fun _ => honors_inside action

theorem honors_importList :
    Honors (orderly backfill .module outer) depth (State.Inside · .module outer) importList
      fun _ => (State.Inside · .module outer) := by
  refine Honors.bind (Honors.discard (.separated (R := fun _ => (State.Inside · .module outer))
    (fun _ => honors_importEntry)
    (fun _ => honors_inside_steady _) (fun _ _ hs => hs.moment) fun _ _ hs => hs.exhausted)
    (fun _ _ hs => hs.moment) fun _ _ hs => hs) fun _ => honors_inside_steady _

theorem honors_constantDeclaration :
    Honors (orderly backfill .module outer) depth (State.Inside · .module outer) constantDeclaration
      fun _ => (State.Inside · .module outer) := by
  have hconstant : Scope.Owner.module.Declares .constant := trivial
  refine .of_exists fun inner => honors_identifier.bind fun name => .given fun hname => ?_
  refine (honors_token _).bind fun exported => (honors_token _).bind fun _ => ?_
  refine (honors_steady constantValue).bind fun value => ?_
  obtain ⟨value, type⟩ := value
  refine (honors_token _).bind fun _ => ?_
  refine (honors_requireFresh name).bind fun _ => .given fun hfresh => ?_
  refine ((honors_declare hfresh hname hconstant).discard (fun _ _ ht => ht.2.moment)
    fun _ _ ht => ht.2).bind fun _ => ?_
  exact honors_moduleName.bind fun _ => honors_inside _

/-! ### Variables -/

/-- The names of a list that is being declared have entries of the scope. -/
def Listed
    (owner : Scope.Owner)
    (outer : List (String × Symbol.Kind))
    (names : List Named)
    (s : State) :
    Prop :=
  ∃ inner, (∀ v ∈ names, outer.length ≤ v.index ∧ v.index < (outer ++ inner).length) ∧
    s.Scoped owner outer inner

theorem Listed.cons
    {names : List Named} {v : Named} {entry : String × Symbol.Kind} {s : State}
    (hnames : ∀ v ∈ names, outer.length ≤ v.index ∧ v.index < (outer ++ inner).length)
    (hv : v.index = (outer ++ inner).length) (hs : s.Scoped owner outer (inner ++ [entry])) :
    Listed owner outer (v :: names) s := by
  refine ⟨_, fun w hw => ?_, hs⟩
  simp only [List.length_append, List.length_singleton] at hnames hv ⊢
  obtain rfl | hw := List.mem_cons.1 hw
  · omega
  · have := hnames w hw
    omega

theorem Listed.moment {names : List Named} {s : State} (h : Listed owner outer names s) :
    (orderly backfill owner outer).moment none s := by
  obtain ⟨inner, -, hs⟩ := h
  exact hs.moment

theorem Listed.exhausted {names : List Named} {s : State} (h : Listed owner outer names s) :
    (orderly backfill owner outer).halt .exhausted s := by
  obtain ⟨inner, -, hs⟩ := h
  exact hs.halt nofun

theorem honors_names
    {item : Action Named}
    (hitem : ∀ names,
      Honors (orderly backfill owner outer) depth (Listed owner outer names) item fun v =>
        Listed owner outer (v :: names)) :
    Honors (orderly backfill owner outer) depth (State.Inside · owner outer)
      (separated item (accept (.sign .comma))) fun names => Listed owner outer names := by
  refine (Honors.separated hitem (fun names => ?_) (fun _ _ hs => hs.moment)
    fun _ _ hs => hs.exhausted).weaken ?_ ?_
  · refine .of_exists fun inner => .given fun hnames => ?_
    exact (honors_token _).weaken (fun _ hs => hs) fun _ _ ht => ⟨inner, hnames, ht⟩
  · rintro s ⟨inner, hs⟩
    exact ⟨inner, by simp, hs⟩
  · rintro names t ⟨inner, hnames, ht⟩
    exact ⟨inner, fun v hv => hnames v (List.mem_reverse.2 hv), ht⟩

theorem honors_variableName (names : List Named) :
    Honors (orderly backfill owner outer) depth (Listed owner outer names) variableName
      fun v => Listed owner outer (v :: names) := by
  refine .of_exists fun inner => .given fun hnames => honors_identifier.bind fun name =>
    .given fun hname => ?_
  refine (honors_token _).bind fun exported => honors_scope.bind fun scope =>
    .given fun hscope => ?_
  refine .ite (fun _ => honors_reject (.exportedLocal name)) fun hlocal => ?_
  refine (honors_requireFresh name).bind fun _ => .given fun hfresh => ?_
  have hkind : owner.Declares (.variable exported) := by
    obtain ⟨rfl, -⟩ := hscope
    cases howner : scope.owner with
    | module => trivial
    | procedure => simpa [howner, Scope.Owner.Declares] using hlocal
  refine (honors_declare hfresh hname hkind).bind fun index => .given fun hindex => ?_
  exact .pure (fun _ hs => hs.moment) fun _ hs => Listed.cons hnames hindex hs

theorem honors_variableOf
    {d : Declarator}
    {v : Named}
    (hlow : outer.length ≤ v.index)
    (hhigh : v.index < (outer ++ inner).length) :
    Honors (orderly backfill owner outer) depth (State.Scoped · owner outer inner) (variableOf d v)
      fun _ => (State.Scoped · owner outer inner) := by
  refine (honors_setType hlow hhigh).bind fun _ => honors_moduleName.bind fun _ =>
    honors_scope.bind fun _ => .given fun _ => ?_
  split <;> exact honors_steady _

theorem honors_variableDeclaration :
    Honors (orderly backfill owner outer) depth (State.Inside · owner outer) variableDeclaration
      fun _ => (State.Inside · owner outer) := by
  refine (honors_names honors_variableName).bind fun names => .of_exists fun inner =>
    .given fun hnames => ?_
  refine (honors_token _).bind fun _ => (honors_steady declaredType).bind fun d =>
    (honors_token _).bind fun _ => ?_
  refine (Honors.forM (fun v hv => ?_) fun _ hs => hs.moment).weaken (fun _ hs => hs)
    fun _ _ ht => ⟨inner, ht⟩
  exact honors_variableOf (hnames v hv).1 (hnames v hv).2

theorem honors_variableDeclarations :
    Honors (orderly backfill owner outer) depth (State.Inside · owner outer) variableDeclarations
      fun _ => (State.Inside · owner outer) :=
  .repeatWhile (honors_inside_steady _) honors_variableDeclaration (fun _ hs => hs.moment)
    fun _ hs => hs.exhausted

/-! ### Procedures -/

theorem honors_parameterName (names : List Named) :
    Honors (orderly backfill .procedure outer) depth (Listed .procedure outer names) parameterName
      fun v => Listed .procedure outer (v :: names) := by
  have hparameter : Scope.Owner.procedure.Declares .parameter := trivial
  refine .of_exists fun inner => .given fun hnames => honors_identifier.bind fun name =>
    .given fun hname => ?_
  refine (honors_requireFresh name).bind fun _ => .given fun hfresh => ?_
  refine (honors_declare hfresh hname hparameter).bind fun index => .given fun hindex => ?_
  exact .pure (fun _ hs => hs.moment) fun _ hs => Listed.cons hnames hindex hs

theorem honors_parameterGroup :
    Honors (orderly backfill .procedure outer) depth (State.Inside · .procedure outer)
      parameterGroup fun _ => (State.Inside · .procedure outer) := by
  refine (honors_inside_steady _).bind fun _ => .ite (fun _ => ?_) fun _ => ?_
  · exact .of_exists fun _ => honors_reject .varParameter
  refine (honors_names honors_parameterName).bind fun names => .of_exists fun inner =>
    .given fun hnames => ?_
  refine (honors_token _).bind fun _ => (honors_steady declaredType).bind fun d => ?_
  refine (Honors.mapM (fun v hv => ?_) fun _ hs => hs.moment).weaken (fun _ hs => hs)
    fun _ _ ht => ⟨inner, ht⟩
  exact (honors_setType (hnames v hv).1 (hnames v hv).2).bind fun _ =>
    honors_moduleName.bind fun _ => honors_pure _

theorem honors_parameterList :
    Honors (orderly backfill .procedure outer) depth (State.Inside · .procedure outer) parameterList
      fun _ => (State.Inside · .procedure outer) := by
  refine (honors_inside_steady _).bind fun _ => .ite (fun _ => ?_) fun _ => honors_inside_steady _
  refine (honors_inside_steady _).bind fun _ => ?_
  have hgroups : Honors (orderly backfill .procedure outer) depth (State.Inside · .procedure outer)
      (separated parameterGroup (accept (.sign .semicolon))) fun _ =>
        (State.Inside · .procedure outer) :=
    .separated (R := fun _ => (State.Inside · .procedure outer)) (fun _ => honors_parameterGroup)
      (fun _ => honors_inside_steady _) (fun _ _ hs => hs.moment) fun _ _ hs => hs.exhausted
  exact .ite (fun _ => honors_inside_steady _) fun _ => hgroups.bind fun _ => honors_inside_steady _

theorem honors_procedureHeader
    {entry : Nat}
    {name : String}
    {exported : Bool}
    (hentry : outer[entry]? = some (name, .procedure exported []))
    (hbackfill : ∀ s, s.Inside .procedure outer → backfill entry exported s) :
    Honors (orderly backfill .procedure outer) depth (State.Inside · .procedure outer)
      (procedureHeader entry name exported) fun _ => (State.Inside · .procedure outer) := by
  refine honors_parameterList.bind fun parameters =>
    (honors_inside_steady resultType).bind fun result => ?_
  refine (honors_inside_steady _).bind fun _ => .of_exists fun inner => ?_
  have hindex : (outer ++ inner)[entry]? = some (name, .procedure exported []) := by
    rw [List.getElem?_append_left (List.getElem?_eq_some_iff.1 hentry).1, hentry]
  refine (honors_setSignature hindex fun s hs => hbackfill s ⟨inner, hs⟩).bind fun _ => ?_
  exact honors_moduleName.bind fun _ => (honors_steady _).bind fun _ => honors_inside _

theorem honors_procedureBody (name : String) :
    Honors (orderly backfill .procedure outer) depth (State.Inside · .procedure outer)
      (procedureBody name) fun _ => (State.Inside · .procedure outer) := by
  have hlocals :=
    Honors.repeatWhile (honors_inside_steady (accept (.keyword .VAR)))
      (@honors_variableDeclarations backfill
    .procedure outer depth) (fun _ hs => hs.moment) fun _ hs => hs.exhausted
  exact hlocals.bind fun _ => honors_inside_steady _

/--
The entry of a procedure: the last one of its module by now, under the name of the procedure and
with its export mark.
-/
def entryOf (name : String) : Backfill := fun index exported u =>
  index + 1 = u.scope.floor ∧ u.symbols.name index = .ok name ∧
    ∃ symbol, u.symbols.get index = .ok symbol ∧ symbol.kind.bare = .procedure exported []

/-- Some procedure's entry. -/
def someEntry : Backfill := fun index exported u => ∃ name, entryOf name index exported u

/-- The scope of a procedure begins behind what its module has declared. -/
theorem State.Scoped.enter {s : State} (h : s.Scoped .module outer inner) :
    State.Scoped s.entered .procedure (outer ++ inner) [] where
  token := h.token
  symbols := by simpa using h.symbols
  encloses := by
    obtain rfl : outer = reservedEntries := h.encloses
    exact ⟨inner, rfl, h.declared⟩
  declared := .nil
  owner := rfl
  floor := h.size_eq
  result howner := by cases howner

/-- Behind a procedure the names of its module are as they were. -/
theorem State.Scoped.leave
    {s t : State} {locals : List (String × Symbol.Kind)} (h : s.Scoped .module outer inner)
    (ht : t.Scoped .procedure (outer ++ inner) locals) :
    ∃ symbols, t.symbols.release s.symbols.mark = .ok () symbols ∧
      State.Scoped { t with symbols, scope := .ofModule s.scope.floor } .module outer inner := by
  obtain ⟨symbols, hrelease, hshows⟩ := ht.symbols.exists_release h.symbols rfl
  exact ⟨symbols, hrelease, ht.token, hshows, h.encloses, h.declared, rfl, h.floor, fun _ => rfl⟩

/-- A procedure scope of its own leaves the names of its module as they are, also on a halt. -/
theorem honors_inProcedure
    {body : Action α}
    (hbody : Honors (orderly backfill .procedure (outer ++ inner)) depth
      (State.Inside · .procedure (outer ++ inner)) body fun _ =>
      (State.Inside · .procedure (outer ++ inner))) :
    Honors (orderly backfill .module outer) depth (State.Scoped · .module outer inner)
      (inProcedure body done) fun _ => (State.Scoped · .module outer inner) := by
  refine .inProcedure (fun _ hs => hs.moment) (fun s hs => hbody.weaken ?_ fun _ _ ht => ht)
    (fun _ _ _ _ hmoment => hmoment)
    ?_ ?_
  · rintro _ rfl
    exact ⟨[], hs.enter⟩
  · rintro s t a hs ⟨locals, ht⟩
    obtain ⟨symbols, hrelease, hscoped⟩ := hs.leave ht
    exact ⟨symbols, hrelease, hscoped.moment, hscoped⟩
  · rintro s t halt hs ⟨⟨locals, ht⟩, hfault⟩
    obtain ⟨symbols, hrelease, hscoped⟩ := hs.leave ht
    exact ⟨symbols, hrelease, hscoped.halt hfault⟩

/--
Inside its scope a procedure has its signature entered for its own entry, the last one around the
scope.
-/
theorem honors_procedureScope
    {entry : Nat}
    {name : String}
    {exported : Bool}
    (hentry : outer[entry]? = some (name, .procedure exported []))
    (hlast : entry + 1 = outer.length) :
    Honors (orderly (entryOf name) .procedure outer) depth (State.Inside · .procedure outer)
      (do procedureHeader entry name exported; procedureBody name) fun _ =>
      (State.Inside · .procedure outer) := by
  refine (honors_procedureHeader hentry ?_).bind fun _ => honors_procedureBody _
  rintro u ⟨locals, hu⟩
  have hindex : (outer ++ locals)[entry]? = some (name, .procedure exported []) := by
    rw [List.getElem?_append_left (List.getElem?_eq_some_iff.1 hentry).1, hentry]
  exact ⟨hlast.trans hu.floor.symm, hu.symbols.name_eq hindex, hu.symbols.exists_get hindex⟩

/--
The declaration of a procedure enters its signature for its own name, which is the token that it
starts with.
-/
theorem honors_procedureDeclaration (name : String) :
    Honors (orderly (entryOf name) .module outer) depth
      (fun s => s.token.lexeme = name ∧ s.Inside .module outer) procedureDeclaration fun _ =>
      (State.Inside · .module outer) := by
  refine .of_each fun s ⟨hlexeme, inner, hs⟩ => ?_
  have hname : Honors (orderly (entryOf name) .module outer) depth (fun u => u = s) identifier
      fun found t => found = name ∧ Keyword.ofSpelling? found = none ∧
        t.Scoped .module outer inner := by
    refine (honors_identifier.weaken (fun _ hu => hu ▸ hs) fun _ _ ht => ht).also ?_
    rintro _ t found rfl hgives
    rw [gives_identifier] at hgives
    exact hgives.2.1.trans hlexeme
  refine hname.bind fun found => .given fun hfound => .given fun hunreserved =>
    (honors_token _).bind fun exported => ?_
  refine (honors_requireFresh found).bind fun _ => .given fun hfresh => ?_
  have hkind : Scope.Owner.module.Declares (.procedure exported []) := rfl
  refine (honors_declare hfresh hunreserved hkind).bind fun entry => .given fun hentry => ?_
  refine (honors_inProcedure ?_).weaken (fun _ hs => hs) fun _ _ ht => ⟨_, ht⟩
  subst hfound
  refine honors_procedureScope ?_ ?_
  · rw [← List.append_assoc, hentry]
    simp
  · rw [hentry]
    simp [Nat.add_assoc]

theorem Live.mono
    {more : Backfill}
    (hmore : ∀ index exported u, backfill index exported u → more index exported u)
    {moment : Option Ask}
    {u : State}
    (h : Live backfill moment u) :
    Live more moment u := by
  unfold Live at h ⊢
  split at h <;> first | exact h | exact ⟨h.1, hmore _ _ _ h.2⟩

/-! ### Modules -/

theorem honors_someProcedure :
    Honors (orderly someEntry .module outer) depth (State.Inside · .module outer)
      procedureDeclaration fun _ => (State.Inside · .module outer) := by
  have hloosen : ∀ name moment u, (orderly (entryOf name) .module outer).moment moment u →
      (orderly someEntry .module outer).moment moment u := by
    rintro name moment u ⟨hu, hlive⟩
    exact ⟨hu, hlive.mono fun _ _ _ hentry => ⟨name, hentry⟩⟩
  refine .of_each fun s hs => ?_
  refine ((honors_procedureDeclaration s.token.lexeme).weaken ?_ fun _ _ ht => ht).loosen
    (hloosen _) fun _ _ hhalt => hhalt
  rintro _ rfl
  exact ⟨rfl, hs⟩

theorem honors_declarations :
    Honors (orderly someEntry .module outer) depth (State.Inside · .module outer) declarations
      fun _ => (State.Inside · .module outer) := by
  have hconstants :=
    Honors.repeatWhile (honors_inside_steady (sees .identifier))
      (@honors_constantDeclaration someEntry outer
    depth) (fun _ hs => hs.moment) fun _ hs => hs.exhausted
  refine (honors_inside_steady _).bind fun _ => .ite (fun _ => ?_) fun _ => ?_
  · exact hconstants.bind fun _ => honors_inside_steady _
  refine (honors_inside_steady _).bind fun _ => .ite (fun _ => ?_) fun _ => ?_
  · exact honors_variableDeclarations.bind fun _ => honors_inside_steady _
  refine (honors_inside_steady _).bind fun _ => .ite (fun _ => ?_) fun _ => honors_inside_steady _
  exact honors_someProcedure.bind fun _ => honors_inside_steady _

/-- The name of the module is the first one. -/
theorem honors_moduleHead :
    Honors (orderly backfill .module outer) depth (State.Scoped · .module outer []) moduleHead
      fun _ => (State.Inside · .module outer) := by
  have hkind : Scope.Owner.module.Declares .thisModule := trivial
  refine (honors_token _).bind fun _ => honors_identifier.bind fun name => .given fun hname => ?_
  refine ((honors_declare (by simp) hname hkind).discard (fun _ _ ht => ht.2.moment)
    fun _ _ ht => ht.2).bind fun _ => ?_
  have hnamed : ∀ inner,
        Honors (orderly backfill .module outer) depth (State.Scoped · .module outer inner)
      (ask (.nameModule name) done) fun _ => (State.Scoped · .module outer inner) :=
    fun _ => honors_harmless (fun _ => trivial) fun _ => ⟨rfl, rfl, rfl⟩
  exact (hnamed _).bind fun _ => (honors_token _).bind fun _ => honors_inside _

/--
A compilation is in good order at every moment; it ends and halts in the scope of the module, and
never by a fault.
-/
theorem honors_wholeModule (header : String) :
    Honors (orderly someEntry .module outer) depth (State.Scoped · .module outer [])
      (wholeModule header) fun _ => (State.Inside · .module outer) := by
  have himports :=
    Honors.repeatWhile (honors_inside_steady (accept (.keyword .IMPORT)))
      (@honors_importList someEntry outer
    depth) (fun _ hs => hs.moment) fun _ hs => hs.exhausted
  have hsections :=
    Honors.repeatWhile (@honors_declarations outer depth) (honors_inside_steady (pure ()))
    (fun _ hs => hs.moment) fun _ hs => hs.exhausted
  refine honors_moduleHead.bind fun _ => himports.bind fun _ =>
    (honors_inside_steady _).bind fun _ => ?_
  exact (honors_inside_steady _).bind fun _ => hsections.bind fun _ => honors_inside_steady _

/-- Whether it succeeds or halts, a run in good order ends in its scope. -/
theorem inside_endState
    {P : State → Prop}
    {action : Action α}
    {s : State}
    (h : Honors (orderly backfill owner outer) depth P action fun _ => (State.Inside · owner outer))
    (hs : P s) :
    (endState (action.run (Rule.run depth) s)).Inside owner outer := by
  cases hrun : action.run (Rule.run depth) s with
  | ok a t => exact h.gives hs hrun
  | error halt t => exact (h.halts hs hrun).1

/--
A compilation starts at the first token of its source, with empty units and the reserved words
alone.
-/
theorem start_spec
    {source : String}
    {limits : Limits}
    {s : State}
    (h : State.start source limits = .ok s) :
    s.Scoped .module reservedEntries [] ∧
    s.output = {} ∧
    (Cursor.ofText source).next .reserved = .ok s.token s.cursor := by
  unfold State.start at h
  split at h
  · cases h
  · rename_i symbols hseed
    have hshows : symbols.Shows Symbol.Kind.bare (reservedEntries ++ []) := by
      simpa using SymbolTable.Shows.seed (fun _ => rfl) hseed
    split at h
    · cases h
    · cases h
    · rename_i token cursor hnext
      rw [hshows.next_eq (by simp)] at hnext
      cases h
      exact ⟨⟨Cursor.classified_of_next_reserved hnext, hshows, rfl, .nil, rfl,
        by simp [hshows.size_eq], fun _ => rfl⟩, rfl, hnext⟩

end Compilation
end Oberon
