import Oberon.Proofs.Asking
import Oberon.Proofs.Listing
import Oberon.Proofs.Target.Legible

/-!
# Legible states

Every name that a compilation declares is a lexeme of its source.  So in every state that the
compilation comes through, the name of the module and the names in the symbol table are
alphanumeric.

**Main result.**  `State.Legible.of_reaches`: all states that the compilation of a source comes
through are legible.
-/

namespace Oberon
namespace Compilation

open Oberon.Compilation.Action

/-- The current token is legible, and the names known so far are alphanumeric. -/
structure State.Legible (s : State) : Prop where
  token : s.token.Legible
  moduleName : Alphanumeric s.moduleName.toList
  names : Alphanumeric s.symbols.names.toList

end Compilation

theorem Alphanumeric.append
    {first second : String}
    (hfirst : Alphanumeric first.toList)
    (hsecond : Alphanumeric second.toList) :
    Alphanumeric (first ++ second).toList := by
  intro c hc
  rw [String.toList_append, List.mem_append] at hc
  obtain hc | hc := hc
  · exact hfirst c hc
  · exact hsecond c hc

namespace SymbolTable

theorem alphanumeric_name
    {t : SymbolTable}
    {index : Nat}
    {name : String}
    (h : Alphanumeric t.names.toList)
    (hname : t.name index = .ok name) :
    Alphanumeric name.toList := by
  unfold SymbolTable.name at hname
  split at hname
  · cases hname
  · split at hname
    · rename_i text hslice
      cases hname
      obtain ⟨before, behind, hnames, -, -⟩ := (Names.slice?_eq_some_iff ..).1 hslice
      intro c hc
      refine h c ?_
      simp [hnames, hc]
    · cases hname

theorem names_of_add
    {t symbols : SymbolTable} {name : String} {kind : Symbol.Kind} {type : DataType} {index : Nat}
    (h : t.add name kind type = .ok (index, symbols)) : symbols.names = t.names ++ name := by
  rw [(eq_push_of_add h).2]
  rfl

theorem names_of_update
    {t symbols : SymbolTable}
    {index : Nat}
    {change : Symbol → Symbol}
    (h : t.update index change = .ok symbols) :
    symbols.names = t.names := by
  unfold SymbolTable.update at h
  split at h <;> cases h
  rfl

theorem alphanumeric_release
    {t symbols : SymbolTable} {mark : Mark} (h : Alphanumeric t.names.toList)
    (hrelease : t.release mark = .ok () symbols) : Alphanumeric symbols.names.toList := by
  unfold SymbolTable.release at hrelease
  dsimp only at hrelease
  split at hrelease
  · cases hrelease
    exact h
  · split at hrelease
    · rename_i names htake
      cases hrelease
      obtain ⟨behind, hnames, -⟩ := (Names.take?_eq_some_iff ..).1 htake
      intro c hc
      refine h c ?_
      simp [hnames, hc]
    · cases hrelease

theorem alphanumeric_seed
    {t symbols : SymbolTable} (h : Alphanumeric t.names.toList) (hseed : t.seed = .ok () symbols) :
    Alphanumeric symbols.names.toList := by
  have hspelling : ∀ word : Keyword, Alphanumeric word.spelling.toList := by
    intro word
    refine List.all_eq_true.1 ?_
    cases word <;> rfl
  unfold SymbolTable.seed at hseed
  generalize Keyword.all = words at hseed
  induction words generalizing t with
  | nil =>
    cases hseed
    exact h
  | cons word words ih =>
    unfold SymbolTable.addKeywords at hseed
    split at hseed
    · rename_i hadd
      refine ih ?_ hseed
      rw [names_of_add hadd]
      exact h.append (hspelling word)
    · cases hseed

end SymbolTable

namespace Compilation

open Oberon.Compilation.Action

namespace State.Legible

variable {s t : State}

theorem context (h : s.Legible) : s.context.Legible where
  moduleName := h.moduleName
  names _ _ hname := SymbolTable.alphanumeric_name h.names hname

theorem of_start
    {source : String} {limits : Limits} (h : State.start source limits = .ok s) :
    s.Legible := by
  unfold State.start at h
  split at h
  · cases h
  · rename_i symbols hseed
    split at h
    · cases h
    · cases h
    · rename_i token cursor hnext
      cases h
      exact ⟨Cursor.legible_next hnext, fun _ => by simp,
        SymbolTable.alphanumeric_seed (fun _ => by simp [SymbolTable.empty]) hseed⟩

end State.Legible

/-- What a request leaves as it is, if it declares no name. -/
theorem Request.names_of_unnaming
    {β : Type} {request : Request β} {s t : State} {b : β} (hrequest : unnaming β request)
    (h : request.perform s = .ok b t) :
    (Request.takeToken s = .ok () t ∨ t.token = s.token) ∧ t.moduleName = s.moduleName ∧
      t.symbols.names = s.symbols.names := by
  have hgives : (ask request done).Gives 0 s b t := (gives_ask request b).2 h
  have hsame : t = s → (Request.takeToken s = .ok () t ∨ t.token = s.token) ∧
        t.moduleName = s.moduleName ∧
      t.symbols.names = s.symbols.names := by
    rintro rfl
    exact ⟨Or.inr rfl, rfl, rfl⟩
  cases request with
  | look => exact hsame ((gives_look _).1 hgives).2
  | take =>
    obtain ⟨token, cursor, -, rfl⟩ := Request.takeToken_eq_ok_iff.1 h
    exact ⟨Or.inl h, rfl, rfl⟩
  | write text =>
    obtain rfl := (gives_write text _).1 hgives
    exact ⟨Or.inr rfl, rfl, rfl⟩
  | publish text =>
    obtain rfl := (gives_publish text _).1 hgives
    exact ⟨Or.inr rfl, rfl, rfl⟩
  | find name => exact hsame ((gives_find name _).1 hgives).2
  | symbol index => exact hsame ((gives_symbol index _).1 hgives).2
  | nameOf index => exact hsame ((gives_nameOf index _).1 hgives).2
  | resolve index => exact hsame ((gives_resolve index _).1 hgives).2
  | declare name kind type => exact hrequest.elim
  | setType index type =>
    obtain ⟨symbols, hupdate, rfl⟩ := (gives_setType index type _).1 hgives
    exact ⟨Or.inr rfl, rfl, SymbolTable.names_of_update hupdate⟩
  | setSignature index exported parameters result =>
    obtain ⟨symbols, hupdate, rfl⟩ :=
      (gives_setSignature index exported parameters result _).1 hgives
    exact ⟨Or.inr rfl, rfl, SymbolTable.names_of_update hupdate⟩
  | requireCompatible left right => exact hsame ((gives_requireCompatible left right _).1 hgives).2
  | form type => exact hsame ((gives_form type _).1 hgives).2
  | element type => exact hsame ((gives_element type _).1 hgives).2
  | addType shape =>
    obtain ⟨-, rfl⟩ := (gives_addType shape _).1 hgives
    exact ⟨Or.inr rfl, rfl, rfl⟩
  | nameModule name => exact hrequest.elim
  | moduleName => exact hsame ((gives_moduleName _).1 hgives).2
  | scope => exact hsame ((gives_scope _).1 hgives).2

theorem legible_invariant : Invariant State.Legible unnaming where
  request request s t b hrequest hs h := by
    obtain ⟨htoken, hmodule, hnames⟩ := Request.names_of_unnaming hrequest h
    refine ⟨?_, hmodule ▸ hs.moduleName, hnames ▸ hs.names⟩
    obtain htake | htoken := htoken
    · exact Request.legible_of_takeToken htake
    · exact htoken ▸ hs.token
  openCapture _ hs := ⟨hs.token, hs.moduleName, hs.names⟩
  closeCapture _ hs := ⟨hs.token, hs.moduleName, hs.names⟩
  enter _ _ hs := ⟨hs.token, hs.moduleName, hs.names⟩
  leave _ _ _ _ hs hrelease :=
    ⟨hs.token, hs.moduleName, SymbolTable.alphanumeric_release hs.names hrelease⟩

/-- A passage over words keeps a state legible. -/
theorem State.Legible.translates
    {s t : State}
    {words : List Word}
    {text : String}
    (hs : s.Legible)
    (h : s.Translates words text t) :
    t.Legible := by
  obtain ⟨u, hpasses, rfl⟩ := h
  suffices hu : u.Legible from ⟨hu.token, hu.moduleName, hu.names⟩
  induction words generalizing s with
  | nil => exact hpasses ▸ hs
  | cons word words ih =>
    obtain ⟨-, v, htake, hrest⟩ := hpasses
    exact ih (legible_invariant.request .take s v () trivial hs htake) hrest

/-! ### Actions that declare names -/

section Keeps

variable {α β : Type} {depth : Nat}

theorem keeps_legible (action : Action α) [Uses unnaming action] :
    Keeps State.Legible depth action fun _ => True :=
  legible_invariant.keeps (fun _ => inferInstance) depth action

/-- An action that declares no name may stand in front. -/
theorem keeps_legible_bind
    {x : Action α} {f : α → Action β} {Q : β → Prop} [Uses unnaming x]
    (hf : ∀ a, Keeps State.Legible depth (f a) Q) : Keeps State.Legible depth (x >>= f) Q :=
  (keeps_legible x).bind fun a _ => hf a

theorem keeps_identifier :
    Keeps State.Legible depth identifier fun name => Alphanumeric name.toList := by
  refine (keeps_legible identifier).strengthen fun {s t name} hs hgives => ?_
  obtain ⟨hkind, rfl, -⟩ := (gives_identifier name).1 hgives
  have htoken : Word.Legible (s.token.kind, s.token.lexeme) := hs.token
  rw [hkind] at htoken
  exact htoken.2

theorem keeps_declare
    {name : String} (kind : Symbol.Kind) (type : DataType) (hname : Alphanumeric name.toList) :
    Keeps State.Legible depth (declare name kind type) fun _ => True := by
  refine .ask fun {s t index} hs hgives => ⟨?_, trivial⟩
  obtain ⟨symbols, hadd, rfl⟩ := (gives_declare name kind type index).1 hgives
  refine ⟨hs.token, hs.moduleName, ?_⟩
  rw [SymbolTable.names_of_add hadd]
  exact hs.names.append hname

theorem keeps_nameModule {name : String} (hname : Alphanumeric name.toList) :
    Keeps State.Legible depth (ask (.nameModule name) done) fun _ => True := by
  refine .ask fun {s t _} hs hgives => ⟨?_, trivial⟩
  obtain rfl := (gives_nameModule name ()).1 hgives
  exact ⟨hs.token, hname, hs.names⟩

theorem keeps_importEntry : Keeps State.Legible depth importEntry fun _ => True := by
  unfold importEntry
  refine keeps_legible_bind fun _ => .ite (fun _ => keeps_identifier.bind fun name hname => ?_)
    fun _ => .pure trivial
  refine keeps_legible_bind fun _ => keeps_legible_bind fun _ => .ite (fun _ => ?_) fun _ => ?_
  · refine keeps_identifier.bind fun real hreal => keeps_legible_bind fun _ => ?_
    refine (keeps_declare _ _ hreal).bind fun target _ => ?_
    exact (keeps_declare _ _ hname).discard.bind fun _ _ => keeps_legible _
  · exact (keeps_declare _ _ hname).discard.bind fun _ _ => keeps_legible _

theorem keeps_importList : Keeps State.Legible depth importList fun _ => True :=
  (keeps_importEntry.separated (keeps_legible _)).discard.bind fun _ _ => keeps_legible _

theorem keeps_constantDeclarations :
    Keeps State.Legible depth constantDeclarations fun _ => True := by
  refine .repeatWhile (keeps_legible _) ?_
  unfold constantDeclaration
  refine keeps_identifier.bind fun name hname => ?_
  refine keeps_legible_bind fun exported => keeps_legible_bind fun _ =>
    keeps_legible_bind fun value => ?_
  refine keeps_legible_bind fun _ => keeps_legible_bind fun _ => ?_
  exact (keeps_declare _ _ hname).discard.bind fun _ _ => keeps_legible _

theorem keeps_variableDeclarations :
    Keeps State.Legible depth variableDeclarations fun _ => True := by
  have hname : Keeps State.Legible depth variableName fun _ => True := by
    unfold variableName
    refine keeps_identifier.bind fun name hname => ?_
    refine keeps_legible_bind fun exported => keeps_legible_bind fun _ => ?_
    dsimp only
    refine .ite (fun _ => keeps_legible_bind fun _ => ?_) fun _ => ?_
    all_goals
      refine keeps_legible_bind fun _ => ?_
      exact (keeps_declare _ _ hname).bind fun _ _ => .pure trivial
  refine .repeatWhile (keeps_legible _) ?_
  unfold variableDeclaration
  exact (hname.separated (keeps_legible _)).bind fun names _ => keeps_legible _

theorem keeps_parameterList : Keeps State.Legible depth parameterList fun _ => True := by
  have hname : Keeps State.Legible depth parameterName fun _ => True := by
    unfold parameterName
    refine keeps_identifier.bind fun name hname => keeps_legible_bind fun _ => ?_
    exact (keeps_declare _ _ hname).bind fun _ _ => .pure trivial
  have hgroup : Keeps State.Legible depth parameterGroup fun _ => True := by
    unfold parameterGroup
    refine keeps_legible_bind fun _ => ?_
    dsimp only
    refine .ite (fun _ => keeps_legible_bind fun _ => ?_) fun _ => ?_
    all_goals exact (hname.separated (keeps_legible _)).bind fun names _ => keeps_legible _
  unfold parameterList
  refine keeps_legible_bind fun _ => .ite (fun _ => keeps_legible_bind fun closed => ?_)
    fun _ => .pure trivial
  dsimp only
  refine .ite (fun _ => keeps_legible _) fun _ => ?_
  exact (hgroup.separated (keeps_legible _)).bind fun groups _ => keeps_legible _

theorem keeps_procedureHeader (entry : Nat) (name : String) (exported : Bool) :
    Keeps State.Legible depth (procedureHeader entry name exported) fun _ => True := by
  unfold procedureHeader
  exact keeps_parameterList.bind fun parameters _ => keeps_legible _

theorem keeps_locals :
    Keeps State.Legible depth (repeatWhile (accept (.keyword .VAR)) variableDeclarations)
      fun _ => True :=
  .repeatWhile (keeps_legible _) keeps_variableDeclarations

theorem keeps_procedureDeclaration :
    Keeps State.Legible depth procedureDeclaration fun _ => True := by
  have hbody : ∀ name, Keeps State.Legible depth (procedureBody name) fun _ => True := by
    intro name
    unfold procedureBody
    exact keeps_locals.bind fun _ _ => keeps_legible _
  unfold procedureDeclaration
  refine keeps_identifier.bind fun name hname => keeps_legible_bind fun exported =>
    keeps_legible_bind fun _ => ?_
  refine (keeps_declare _ _ hname).bind fun entry _ => ?_
  have hsigning : unnaming.Signing := inferInstance
  exact .inProcedure (legible_invariant.enter hsigning) (legible_invariant.leave hsigning)
    ((keeps_procedureHeader entry name exported).bind fun _ _ => hbody name)

theorem keeps_declarations : Keeps State.Legible depth declarations fun _ => True := by
  unfold declarations
  refine keeps_legible_bind fun _ => .ite (fun _ => ?_) fun _ => keeps_legible_bind fun _ =>
    .ite (fun _ => ?_) fun _ =>
    keeps_legible_bind fun _ => .ite (fun _ => ?_) fun _ => .pure trivial
  · exact keeps_constantDeclarations.bind fun _ _ => .pure trivial
  · exact keeps_variableDeclarations.bind fun _ _ => .pure trivial
  · exact keeps_procedureDeclaration.bind fun _ _ => .pure trivial

theorem keeps_moduleHead : Keeps State.Legible depth moduleHead fun _ => True := by
  unfold moduleHead
  refine keeps_legible_bind fun _ => keeps_identifier.bind fun name hname => ?_
  refine (keeps_declare _ _ hname).discard.bind fun _ _ =>
    (keeps_nameModule hname).bind fun _ _ => ?_
  exact keeps_legible _

theorem keeps_imports :
    Keeps State.Legible depth (repeatWhile (accept (.keyword .IMPORT)) importList) fun _ => True :=
  .repeatWhile (keeps_legible _) keeps_importList

theorem keeps_sections :
    Keeps State.Legible depth (repeatWhile declarations (pure ())) fun _ => True :=
  .repeatWhile keeps_declarations (.pure trivial)

theorem keeps_wholeModule (header : String) :
    Keeps State.Legible depth (wholeModule header) fun _ => True := by
  unfold wholeModule
  refine keeps_moduleHead.bind fun _ _ => keeps_imports.bind fun _ _ => ?_
  refine keeps_legible_bind fun _ => keeps_legible_bind fun _ => ?_
  exact keeps_sections.bind fun _ _ => keeps_legible _

end Keeps

/-- All states that the compilation of a source comes through are legible. -/
theorem State.Legible.of_reaches
    {source header : String}
    {limits : Limits}
    {start s : State}
    {depth : Nat}
    (hstart : State.start source limits = .ok start)
    (hs : (wholeModule header).Reaches depth start s) :
    s.Legible :=
  (keeps_wholeModule header).reaches (.of_start hstart) hs

end Compilation
end Oberon
