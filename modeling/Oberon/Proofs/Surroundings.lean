import Oberon.Proofs.Translation.Declaration

/-!
# What procedures leave around them

While a procedure is read its names are entered in the symbol table, types are filled in, and an
error can end the reading at any token.  The table around the procedure is the same afterwards, but
for the procedure's own entry.

**Growth.**  `Grown` says what a run does to the names of the scope that it stands in.  Names are
only added.  Those around the scope stay as they are, up to the types in the last of them.  Every
request keeps this at a moment in good order (`Request.Ends.grown`), leaving a procedure scope does
(`Grown.leave`), and so a whole run does (`keptAt_grown`).

**Main statement.**  `surroundings_restored`: a procedure that has its name entered adds one entry
to the table, whether it succeeds or halts, and that entry holds the types of its heading.  No
parameter and no local variable is left at the end.
-/

namespace Oberon

namespace Entry

/--
The entries `new` are the entries `old` and added ones.  Those in front of `floor` are the same, the
others look the same up to types, and the added ones are as `entered` says of their places.
-/
structure Grown
    (floor : Nat) (entered : Nat → String × Symbol.Kind → Prop) (old new : List Entry) :
    Prop where
  begins : old.map (viewed Symbol.Kind.bare) <+: new.map (viewed Symbol.Kind.bare)
  kept : ∀ i e, i < floor → old[i]? = some e → new[i]? = some e
  added : ∀ i e, old.length ≤ i → new[i]? = some e → entered i (e.viewed Symbol.Kind.bare)

namespace Grown

variable {floor : Nat} {entered : Nat → String × Symbol.Kind → Prop} {old mid new : List Entry}

theorem refl (old : List Entry) : Grown floor entered old old where
  begins := List.prefix_rfl
  kept _ _ _ h := h
  added i e hi h := by
    have hlt := (List.getElem?_eq_some_iff.1 h).1
    omega

theorem trans (h : Grown floor entered old mid) (h' : Grown floor entered mid new) :
    Grown floor entered old new where
  begins := h.begins.trans h'.begins
  kept i e hi he := h'.kept i e hi (h.kept i e hi he)
  added i e hi he := by
    by_cases hmid : mid.length ≤ i
    · exact h'.added i e hmid he
    · -- The entry was added before, and it has looked the same since.
      have hentry : mid[i]? = some mid[i] := List.getElem?_eq_getElem (by omega)
      have hlook : (new.map (viewed Symbol.Kind.bare))[i]? =
          some (mid[i].viewed Symbol.Kind.bare) := by
        obtain ⟨others, hothers⟩ := h'.begins
        rw [← hothers, List.getElem?_append_left (by rw [List.length_map]; omega),
          List.getElem?_map, hentry]
        rfl
      rw [List.getElem?_map, he] at hlook
      rw [Option.some.inj hlook]
      exact h.added i mid[i] hi hentry

/-- The added entries are also as something weaker says. -/
theorem imp
    {entered' : Nat → String × Symbol.Kind → Prop} (h : Grown floor entered old new)
    (himp : ∀ i e, entered i e → entered' i e) : Grown floor entered' old new where
  begins := h.begins
  kept := h.kept
  added i e hi he := himp i _ (h.added i e hi he)

theorem append {e : Entry} (h : entered old.length (e.viewed Symbol.Kind.bare)) :
    Grown floor entered old (old ++ [e]) where
  begins := by simp
  kept i e hi he := by rw [List.getElem?_append_left (List.getElem?_eq_some_iff.1 he).1, he]
  added i e' hi he := by
    rw [List.getElem?_append_right hi, List.getElem?_singleton] at he
    split at he
    · cases he
      obtain rfl : i = old.length := by omega
      exact h
    · cases he

theorem modify
    {f : Entry → Entry} {index : Nat} (hfloor : floor ≤ index)
    (h : ∀ e, old[index]? = some e → (f e).viewed Symbol.Kind.bare = e.viewed Symbol.Kind.bare) :
    Grown floor entered old (old.modify index f) where
  begins := by rw [map_modify h]
  kept i e hi he := by
    have hne : index ≠ i := by omega
    rw [List.getElem?_modify, he]
    simp [hne]
  added i e hi he := by
    have hlt := (List.getElem?_eq_some_iff.1 he).1
    rw [List.length_modify] at hlt
    omega

end Grown

end Entry

namespace Compilation

open Oberon.Grammar
open Oberon.Compilation.Action

variable {α β : Type} {s t u : State} {depth : Nat}

/-! ### Growth -/

/-- The names that scopes enter, and their places in the table. -/
abbrev Entering := Scope.Owner → Nat → String × Symbol.Kind → Prop

/-- The names that a scope enters, and those of the module that it is left for. -/
def Entering.within
    (entered : Entering)
    (owner : Scope.Owner)
    (index : Nat)
    (entry : String × Symbol.Kind) :
    Prop :=
  entered owner index entry ∨ entered .module index entry

/--
From `s` to `t` the innermost scope, or the module behind it, only adds names, and around it at most
the types in the last `slack` entries change.
-/
structure Grown (slack : Nat) (entered : Entering) (s t : State) : Prop where
  owner : t.scope.owner = s.scope.owner ∨ t.scope.owner = .module
  floor_eq : t.scope.floor = s.scope.floor
  limits_eq : t.symbols.limits = s.symbols.limits
  entries : ∀ old, s.symbols.Lists old → ∃ new, t.symbols.Lists new ∧
    Entry.Grown (s.scope.floor - slack) (entered.within s.scope.owner) old new

/--
Entries whose signature may be filled in are procedures, and among the last `slack` ones around the
scope.
-/
def Backfill.Near (backfill : Backfill) (slack : Nat) : Prop :=
  ∀ index exported u, backfill index exported u → u.scope.floor ≤ index + slack ∧
    ∃ symbol, u.symbols.get index = .ok symbol ∧ symbol.kind.bare = .procedure exported []

theorem near_entryOf (name : String) : (entryOf name).Near 1 := by
  intro index exported u h
  exact ⟨Nat.le_of_eq h.1.symm, h.2.2⟩

theorem near_someEntry : someEntry.Near 1 := by
  rintro index exported u ⟨name, h⟩
  exact near_entryOf name index exported u h

/-- No entry at all. -/
def noEntry : Backfill := fun _ _ _ => False

theorem near_noEntry : noEntry.Near 0 := by
  intro index exported u h
  exact h.elim

section Grown

variable {slack : Nat} {entered : Entering} {backfill : Backfill}

theorem Grown.of_eq (hsymbols : t.symbols = s.symbols) (hscope : t.scope = s.scope) :
    Grown slack entered s t where
  owner := .inl (by rw [hscope])
  floor_eq := by rw [hscope]
  limits_eq := by rw [hsymbols]
  entries old hold := ⟨old, hsymbols ▸ hold, .refl old⟩

/-- What a later scope enters is what the earlier one or the module enters. -/
theorem Grown.within_of_within
    {index : Nat} {entry : String × Symbol.Kind} (h : Grown slack entered s t)
    (hentry : entered.within t.scope.owner index entry) :
    entered.within s.scope.owner index entry := by
  obtain howner | howner := h.owner
  · rwa [howner] at hentry
  · rw [howner] at hentry
    exact .inr (hentry.elim id id)

theorem Grown.trans (h : Grown slack entered s t) (h' : Grown slack entered t u) :
    Grown slack entered s u where
  owner := by
    obtain howner | howner := h'.owner
    · rw [howner]
      exact h.owner
    · exact .inr howner
  floor_eq := h'.floor_eq.trans h.floor_eq
  limits_eq := h'.limits_eq.trans h.limits_eq
  entries old hold := by
    obtain ⟨mid, hmid, hfirst⟩ := h.entries old hold
    obtain ⟨new, hnew, hsecond⟩ := h'.entries mid hmid
    rw [h.floor_eq] at hsecond
    exact ⟨new, hnew, hfirst.trans (hsecond.imp fun _ _ => h.within_of_within)⟩

/-- At a moment in good order a request lets the names grow. -/
theorem Request.Ends.grown
    {request : Request β}
    (h : request.Ends s t)
    (hlive : Live backfill (some ⟨β, request⟩) s)
    (hnear : backfill.Near slack)
    (hdeclare : ∀ name kind type, (⟨β, request⟩ : Ask) = ⟨Nat, .declare name kind type⟩ →
      entered s.scope.owner s.symbols.size (name, kind.bare)) :
    Grown slack entered s t := by
  cases h with
  | unchanged => exact .of_eq rfl rfl
  | take => exact .of_eq rfl rfl
  | write text => exact .of_eq rfl rfl
  | publish text => exact .of_eq rfl rfl
  | nameModule name => exact .of_eq rfl rfl
  | addType shape => exact .of_eq rfl rfl
  | declare hadd =>
    refine ⟨.inl rfl, rfl, SymbolTable.limits_of_add hadd,
      fun old hold => ⟨_, (hold.add hadd).2, .append (.inl ?_)⟩⟩
    rw [← hold.size_eq]
    exact hdeclare _ _ _ rfl
  | @setType index type _ symbols hset =>
    refine ⟨.inl rfl, rfl, SymbolTable.limits_of_update hset, fun old hold => ?_⟩
    refine ⟨_, hold.update (f := fun e => { e with type }) (fun _ => rfl) (fun _ _ => rfl) hset,
      .modify ?_ fun _ _ => rfl⟩
    exact Nat.le_trans (Nat.sub_le ..) hlive.1
  | @setSignature index exported parameters result _ symbols hset =>
    obtain ⟨hfloor, symbol, hget, hkind⟩ := hnear index exported s hlive.2
    refine ⟨.inl rfl, rfl, SymbolTable.limits_of_update hset, fun old hold => ?_⟩
    refine ⟨_,
      hold.update (f := fun e => { e with kind := .procedure exported parameters, type := result })
      (fun _ => rfl)
      (fun _ _ => rfl) hset, .modify (Nat.sub_le_of_le_add hfloor) fun e he => ?_⟩
    rw [hold.get_eq he] at hget
    cases hget
    rw [Entry.viewed, Entry.viewed, Prod.mk.injEq]
    exact ⟨rfl, hkind.symm⟩

/-- A procedure scope can be left, and leaves the entries around it as `Grown` says. -/
theorem Grown.exists_release
    {old : List Entry}
    (hold : s.symbols.Lists old)
    (h : Grown slack entered s.entered t) :
    ∃ symbols new,
      t.symbols.release s.symbols.mark = .ok () symbols ∧
      symbols.limits = s.symbols.limits ∧
      symbols.Lists new ∧
      new.map (Entry.viewed Symbol.Kind.bare) = old.map (Entry.viewed Symbol.Kind.bare) ∧
      (∀ i e, i < old.length - slack → old[i]? = some e → new[i]? = some e) ∧
      ∀ i e, new[i]? = some e →
        ∃ symbol, t.symbols.get i = .ok symbol ∧ symbol.kind = e.kind ∧ symbol.type = e.type := by
  obtain ⟨all, hall, hgrown⟩ := h.entries old hold
  obtain ⟨symbols, new, hrelease, hnew, hbegins, hlook⟩ :=
    hall.exists_release_viewed hold hgrown.begins rfl
  have hlength : new.length = old.length := by
    rw [← List.length_map (f := Entry.viewed Symbol.Kind.bare), hlook, List.length_map]
  have hsize : s.symbols.mark.entries = old.length := by rw [hold.mark_eq]
  obtain ⟨others, rfl⟩ := hbegins
  refine ⟨symbols, new, hrelease, (SymbolTable.limits_of_release hrelease).trans h.limits_eq, hnew,
    hlook, ?_, ?_⟩
  · intro i e hi he
    have hfloor : s.entered.scope.floor = old.length := hsize
    have hkept := hgrown.kept i e (by rwa [hfloor]) he
    rwa [List.getElem?_append_left (by omega)] at hkept
  · intro i e he
    have hentry : (new ++ others)[i]? = some e := by
      rw [List.getElem?_append_left (List.getElem?_eq_some_iff.1 he).1, he]
    exact ⟨_, hall.get_eq hentry, rfl, rfl⟩

/-- Behind a procedure scope no names have been added. -/
theorem Grown.leave
    (hs : s.Orderly) (h : Grown slack entered s.entered t) :
    Grown slack entered s (endState (Action.leave s.symbols.mark s.scope.floor t)) := by
  obtain ⟨owner, outer, inner, hs⟩ := hs
  obtain ⟨old, hold, -⟩ := hs.symbols
  have hfloor : s.scope.floor ≤ old.length := by
    rw [hs.floor, ← hold.size_eq, hs.size_eq, List.length_append]
    exact Nat.le_add_right ..
  obtain ⟨symbols, -, hrelease, hlimits, -⟩ := h.exists_release hold
  have hleave : endState (Action.leave s.symbols.mark s.scope.floor t) =
      { t with symbols, scope := .ofModule s.scope.floor } := by
    simp [Action.leave, hrelease, endState]
  rw [hleave]
  refine ⟨.inr rfl, rfl, hlimits, fun other hother => ?_⟩
  have hlength : other.length = old.length := by rw [← hother.size_eq, hold.size_eq]
  obtain ⟨symbols', new, hrelease', -, hnew, hlook, hkept, -⟩ := h.exists_release hother
  rw [hrelease] at hrelease'
  cases hrelease'
  refine ⟨new, hnew, by rw [hlook], fun i e hi => hkept i e (by omega), fun i e hi he => ?_⟩
  have hlt := (List.getElem?_eq_some_iff.1 he).1
  rw [← List.length_map (f := Entry.viewed Symbol.Kind.bare), hlook, List.length_map] at hlt
  omega

/-- A run all of whose moments are in good order lets the names of its scope grow. -/
theorem keptAt_grown
    {M : Option Ask → State → Prop}
    (horderly : ∀ moment u, M moment u → u.Orderly ∧ Live backfill moment u)
    (hnear : backfill.Near slack)
    (hdeclare : ∀ name kind type u, M (some ⟨Nat, .declare name kind type⟩) u →
      entered u.scope.owner u.symbols.size (name, kind.bare)) :
    KeptAt M (Grown slack entered) where
  refl _ := .of_eq rfl rfl
  trans := .trans
  request request s hs :=
    (request.ends_perform s).grown (horderly _ s hs).2 hnear fun name kind type heq =>
      hdeclare name kind type s (heq ▸ hs)
  capture _ _ h := ⟨h.owner, h.floor_eq, h.limits_eq, h.entries⟩
  procedure s _ hs h := h.leave (horderly _ s hs).1

theorem Honors.grown
    {owner : Scope.Owner}
    {outer : List (String × Symbol.Kind)}
    {P : State → Prop}
    {action : Action α}
    {Q : α → State → Prop}
    (h : Honors (orderly backfill owner outer) depth P action Q)
    (hnear : backfill.Near slack)
    (hs : P s) :
    Grown slack (fun _ _ _ => True) s (endState (action.run (Rule.run depth) s)) := by
  have hkept : KeptAt (orderly backfill owner outer).moment (Grown slack fun _ _ _ => True) :=
    keptAt_grown (fun _ _ hmoment => hmoment) hnear fun _ _ _ _ _ => trivial
  exact hkept.run depth action s fun _ _ hcomes => h.comes hs hcomes

/-- Around a scope with no slack an entry keeps its kind and its type. -/
theorem Grown.get_eq
    {old : List Entry}
    {index : Nat}
    {symbol : Symbol}
    (h : Grown 0 entered s t)
    (hold : s.symbols.Lists old)
    (hindex : index < s.scope.floor)
    (hget : s.symbols.get index = .ok symbol) :
    ∃ symbol',
      t.symbols.get index = .ok symbol' ∧
      symbol'.kind = symbol.kind ∧
      symbol'.type = symbol.type := by
  obtain ⟨e, he, hkind, htype⟩ := hold.exists_entry hget
  obtain ⟨new, hnew, hgrown⟩ := h.entries old hold
  exact ⟨_, hnew.get_eq (hgrown.kept index e hindex he), hkind.symm, htype.symm⟩

end Grown

/-! ### Procedures -/

/--
The beginning of a procedure declaration: the name is entered, and given back with its place and its
export mark.
-/
def procedureName : Action (Nat × String × Bool) := do
  let name ← identifier
  let exported ← accept (.sign .asterisk)
  requireFresh name
  let entry ← declare name (.procedure exported []) .unknown
  return (entry, name, exported)

/-- Behind its name a procedure declaration goes on in a scope of its own. -/
theorem procedureDeclaration_eq :
    procedureDeclaration =
      procedureName >>= fun found =>
        inProcedure (do procedureHeader found.1 found.2.1 found.2.2; procedureBody found.2.1)
        done := by
  simp [procedureDeclaration, procedureName]

theorem endState_bind_of_gives {x : Action α} {f : α → Action β} {a : α} (h : x.Gives depth s a u) :
    endState ((x >>= f).run (Rule.run depth) s) = endState ((f a).run (Rule.run depth) u) := by
  have hrun : x.run (Rule.run depth) s = .ok a u := h
  rw [run_bind]
  change endState (EStateM.bind _ _ s) = _
  rw [EStateM.bind, hrun]

theorem endState_inProcedure (body : Action α) :
    endState ((inProcedure body done).run (Rule.run depth) s) =
      endState (Action.leave s.symbols.mark s.scope.floor
        (endState (body.run (Rule.run depth) s.entered))) := by
  rw [← endState_enclosed]
  change endState (EStateM.bind _ _ s) = _
  unfold EStateM.bind
  cases enclosed (body.run (Rule.run depth)) s with
  | ok a t => rfl
  | error halt t => rfl

/-- The name of a procedure becomes the last entry of its module. -/
theorem scoped_of_procedureName
    {outer inner : List (String × Symbol.Kind)}
    {entry : Nat}
    {name : String}
    {exported : Bool}
    (hs : s.Scoped .module outer inner)
    (h : procedureName.Gives depth s (entry, name, exported) u) :
    u.Scoped .module outer (inner ++ [(name, .procedure exported [])]) ∧
    entry = s.symbols.size ∧
    u.symbols = s.symbols.push name (.procedure exported []) .unknown ∧
    u.scope = s.scope := by
  unfold procedureName at h
  simp only [gives_bind, gives_pure] at h
  obtain ⟨name, s₁, hname, exported, s₂, hmark, _, s₃, hfresh, entry, s₄, hdeclare, heq, rfl⟩ := h
  cases heq
  have hkind : Scope.Owner.module.Declares (.procedure exported []) := rfl
  obtain ⟨hunreserved, hs₁⟩ := (@honors_identifier someEntry _ _ _ depth).gives hs hname
  have hs₂ := (@honors_token _ someEntry _ _ _ depth (accept (.sign .asterisk)) _).gives hs₁ hmark
  obtain ⟨hnew, hs₃⟩ := (@honors_requireFresh someEntry _ _ _ depth name).gives hs₂ hfresh
  obtain ⟨-, hs₄⟩ :=
    (@honors_declare someEntry _ _ _ depth name _ .unknown hnew hunreserved hkind).gives hs₃
      hdeclare
  obtain rfl := eq_of_requireFresh hfresh
  have hmarked := translates_of_marked hname hmark
  have hsymbols : s₃.symbols = s.symbols := hmarked.symbols_eq
  obtain ⟨symbols, hadd, rfl⟩ := (gives_declare ..).1 hdeclare
  obtain ⟨rfl, rfl⟩ := SymbolTable.eq_push_of_add hadd
  exact ⟨hs₄, by rw [hsymbols], by rw [hsymbols], hmarked.scope_eq⟩

/--
Leaving the scope of a procedure leaves the table as it was before the procedure, with one entry
added to it.
-/
theorem exists_push_of_leave
    {entered : Entering}
    {old : List Entry}
    {name : String}
    {exported : Bool}
    {w : State}
    (hold : s.symbols.Lists old)
    (hsymbols : u.symbols = s.symbols.push name (.procedure exported []) .unknown)
    (h : Grown 1 entered u.entered w) :
    ∃ symbol parameters,
      w.symbols.get s.symbols.size = .ok symbol ∧
      symbol.kind = .procedure exported parameters ∧
      endState (Action.leave u.symbols.mark u.scope.floor w) = { w with
        symbols := s.symbols.push name (.procedure exported parameters) symbol.type
        scope := .ofModule u.scope.floor } := by
  have hpushed : u.symbols.Lists (old ++ [⟨name, .procedure exported [], .unknown⟩]) := by
    rw [hsymbols]
    exact hold.push ⟨name, .procedure exported [], .unknown⟩
  obtain ⟨symbols, new, hrelease, hlimits, hnew, hlook, hkept, hget⟩ := h.exists_release hpushed
  -- The entries left are the old ones and one that looks like the entry of the procedure.
  rw [List.map_append] at hlook
  obtain ⟨front, back, rfl, hfront, hback⟩ := List.map_eq_append_iff.1 hlook
  obtain ⟨e, rfl, he⟩ := List.map_eq_singleton_iff.1 hback
  have hlength : front.length = old.length := by
    rw [← List.length_map (f := Entry.viewed Symbol.Kind.bare), hfront, List.length_map]
  have hsame : front = old := by
    refine List.ext_getElem hlength fun i hi hi' => ?_
    have hentry := hkept i old[i] (by simpa using hi')
      (by rw [List.getElem?_append_left hi', List.getElem?_eq_getElem hi'])
    rw [List.getElem?_append_left hi, List.getElem?_eq_getElem hi] at hentry
    exact Option.some.inj hentry
  subst hsame
  obtain ⟨hname, hkind⟩ : e.name = name ∧ e.kind.bare = .procedure exported [] := Prod.mk.inj he
  obtain ⟨parameters, hkind⟩ : ∃ parameters, e.kind = .procedure exported parameters := by
    cases hcase : e.kind with
    | procedure marked parameters =>
      rw [hcase] at hkind
      cases hkind
      exact ⟨parameters, rfl⟩
    | _ => simp [hcase, Symbol.Kind.bare] at hkind
  obtain ⟨symbol, hsymbol, hsymbolKind, hsymbolType⟩ := hget front.length e (by simp)
  have htable : symbols = s.symbols.push name (.procedure exported parameters) symbol.type := by
    refine hnew.table_eq ?_ (by rw [hlimits, hsymbols]; rfl)
    rw [← hname, ← hkind, hsymbolType]
    exact hold.push e
  refine ⟨symbol, parameters, by rw [hold.size_eq, hsymbol], by rw [hsymbolKind, hkind], ?_⟩
  simp [Action.leave, hrelease, endState, htable]

/--
The types that a header has entered for its procedure are still there behind the body, whether that
succeeds or halts.
-/
theorem exists_signature_of_procedureHeader
    {outer inner : List (String × Symbol.Kind)}
    {entry : Nat}
    {name : String}
    {exported : Bool}
    {v w : State}
    (hs : s.Scoped .procedure outer inner)
    (hremaining : s.remaining < depth)
    (hentry : outer[entry]? = some (name, .procedure exported []))
    (hheader : (procedureHeader entry name exported).Gives depth s () v)
    (hw : w = endState ((procedureBody name).run (Rule.run depth) v)) :
    ∃ (heading : Heading) (symbol : Symbol) (parameters : List DataType),
      heading.name = ⟨name, exported⟩ ∧
      Reads s.vantage heading.rest v.vantage ∧
      w.symbols.get entry = .ok symbol ∧
      symbol.kind = .procedure exported parameters ∧
      Heading.ParametersHave w.types (heading.parameters.getD []) parameters ∧
      Heading.ResultHas w.types heading.result symbol.type := by
  subst hw
  have hwithin : s.Within s.moduleName .procedure depth := ⟨rfl, hremaining, _, _, hs⟩
  obtain ⟨heading, added, hheading, ⟨given, hgiven, parameters, hkind, hparameters, hresult⟩, -, -,
      hleaves⟩ :=
    leaves_of_procedureHeader hwithin hs hentry hheader
  obtain ⟨more, -, hmore⟩ := hleaves.inScope hs
  obtain ⟨listed, hlisted, -⟩ := hmore.symbols
  -- The body enters no signature, so it changes nothing around the scope.
  have hbody := (@honors_procedureBody noEntry _ depth name).grown near_noEntry ⟨_, hmore⟩
  have hfloor : entry < v.scope.floor := by
    rw [hmore.floor]
    exact (List.getElem?_eq_some_iff.1 hentry).1
  obtain ⟨symbol, hget, hsameKind, hsameType⟩ := hbody.get_eq hlisted hfloor hgiven
  have htypes := kept_types.run (kept_types.rule depth) (procedureBody name) v
  refine ⟨heading, symbol, parameters, hheading, hleaves.reads ⟨_, _, _, hs⟩, hget,
    hsameKind.trans hkind, hparameters.mono htypes, ?_⟩
  rw [hsameType]
  exact hresult.mono htypes

/--
A procedure adds its entry to the table and leaves its scope, and the entry holds the types of the
heading.
-/
theorem exists_push_of_procedureName
    {outer inner : List (String × Symbol.Kind)}
    {entry : Nat}
    {name : String}
    {exported : Bool}
    (hs : s.Scoped .module outer inner)
    (hremaining : s.remaining < depth)
    (hname : procedureName.Gives depth s (entry, name, exported) u)
    (ht : t = endState (procedureDeclaration.run (Rule.run depth) s)) :
    ∃ parameters result,
      t.symbols = s.symbols.push name (.procedure exported parameters) result ∧
      t.scope = s.scope ∧
      ∀ v, (procedureHeader entry name exported).Gives depth u.entered () v →
        ∃ heading : Heading,
          heading.name = ⟨name, exported⟩ ∧
          Reads u.vantage heading.rest v.vantage ∧
          Heading.ParametersHave t.types (heading.parameters.getD []) parameters ∧
          Heading.ResultHas t.types heading.result result := by
  obtain ⟨hscoped, rfl, hsymbols, hscope⟩ := scoped_of_procedureName hs hname
  have hinside := hscoped.enter
  have hentry : (outer ++ (inner ++ [(name, .procedure exported [])]))[s.symbols.size]? =
      some (name, .procedure exported []) := by
    rw [hs.size_eq, ← List.append_assoc]
    simp
  have hlast : s.symbols.size + 1 =
      (outer ++ (inner ++ [(name, Symbol.Kind.procedure exported [])])).length := by
    rw [hs.size_eq]
    simp [Nat.add_assoc]
  obtain ⟨old, hold, -⟩ := hs.symbols
  have hgrown :=
    (@honors_procedureScope _ depth _ _ _ hentry hlast).grown (near_entryOf name) (s := u.entered)
      ⟨[], hinside⟩
  obtain ⟨symbol, parameters, hget, hkind, hleave⟩ := exists_push_of_leave hold hsymbols hgrown
  rw [procedureDeclaration_eq, endState_bind_of_gives hname, endState_inProcedure, hleave] at ht
  subst ht
  refine ⟨parameters, symbol.type, rfl, hscoped.scope_eq.symm.trans hscope, fun v hheader => ?_⟩
  rw [endState_bind_of_gives hheader] at hget ⊢
  have hroom : u.remaining < depth := Nat.lt_of_le_of_lt hname.remaining_le hremaining
  obtain ⟨heading, symbol', parameters', hheading, hreads, hget', hkind', hparameters, hresult⟩ :=
    exists_signature_of_procedureHeader hinside hroom hentry hheader rfl
  obtain rfl : symbol' = symbol := Except.ok.inj (hget'.symm.trans hget)
  obtain rfl : parameters' = parameters := (Symbol.Kind.procedure.inj (hkind'.symm.trans hkind)).2
  exact ⟨heading, hheading, hreads, hparameters, hresult⟩

/-! ### Modules -/

/-- The names that the declarations on the way of a run enter. -/
def enteredBy
    (action : Action α) (depth : Nat) (start : State) :
    Entering :=
  fun owner index entry =>
  ∃ name kind type u, entry = (name, kind.bare) ∧
    action.Comes depth start (some ⟨Nat, .declare name kind type⟩) u ∧
    u.scope.owner = owner ∧ u.symbols.size = index

theorem grown_wholeModule
    {outer : List (String × Symbol.Kind)}
    (header : String)
    (hs : s.Scoped .module outer []) :
    Grown 1 (enteredBy (wholeModule header) depth s) s
      (endState ((wholeModule header).run (Rule.run depth) s)) := by
  have hmodule := @honors_wholeModule outer depth header
  have hkept : KeptAt (fun moment u => (wholeModule header).Comes depth s moment u)
      (Grown 1 (enteredBy (wholeModule header) depth s)) := by
    refine keptAt_grown (fun moment u hcomes => hmodule.comes hs hcomes) near_someEntry ?_
    intro name kind type u hcomes
    exact ⟨name, kind, type, u, rfl, hcomes, rfl, rfl⟩
  exact hkept.run depth (wholeModule header) s fun _ _ hcomes => hcomes

/--
At the end of a module no name of a procedure is left, and every variable has been declared by the
module.
-/
theorem left_of_wholeModule
    {index : Nat}
    {symbol : Symbol}
    (header : String)
    (hs : s.Scoped .module reservedEntries [])
    (ht : t = endState ((wholeModule header).run (Rule.run depth) s))
    (hget : t.symbols.get index = .ok symbol) :
    symbol.kind ≠ .parameter ∧
    ∀ exported, symbol.kind = .variable exported →
      ∃ name type u,
        t.symbols.name index = .ok name ∧
        (wholeModule header).Comes depth s (some ⟨Nat, .declare name (.variable exported) type⟩) u ∧
        u.scope.owner = .module ∧
        u.symbols.size = index := by
  subst ht
  obtain ⟨inner, ht⟩ := inside_endState (honors_wholeModule header) hs
  obtain ⟨old, hold, hlook⟩ := hs.symbols
  obtain ⟨new, hnew, hgrown⟩ := (grown_wholeModule header hs).entries old hold
  obtain ⟨e, he, hkind, -⟩ := hnew.exists_entry hget
  have hshown : (reservedEntries ++ inner)[index]? = some (e.viewed Symbol.Kind.bare) := by
    rw [← SymbolTable.Shows.unique ⟨new, hnew, rfl⟩ ht.symbols, List.getElem?_map, he]
    rfl
  have hlength : old.length = reservedEntries.length := by
    rw [← List.length_map (f := Entry.viewed Symbol.Kind.bare), hlook, List.append_nil]
  refine ⟨fun hparameter => ?_, fun exported hvariable => ?_⟩
  · rw [hkind] at hparameter
    obtain hreserved | hinner := List.mem_append.1 (List.mem_of_getElem? hshown)
    · obtain ⟨word, hword⟩ := reservedEntries_spec hreserved
      simp [Entry.viewed, hparameter, Symbol.Kind.bare] at hword
    · obtain hdeclares | ⟨-, target, halias⟩ := ht.declared.declares _ hinner
      · simp [Entry.viewed, hparameter, Symbol.Kind.bare, Scope.Owner.Declares] at hdeclares
      · simp [Entry.viewed, hparameter, Symbol.Kind.bare] at halias
  · rw [hkind] at hvariable
    have hbehind : old.length ≤ index := by
      by_contra hlt
      rw [List.getElem?_append_left (by omega)] at hshown
      obtain ⟨word, hword⟩ := reservedEntries_spec (List.mem_of_getElem? hshown)
      simp [Entry.viewed, hvariable, Symbol.Kind.bare] at hword
    have hentered := hgrown.added index e hbehind he
    rw [Entering.within, hs.owner, or_self] at hentered
    obtain ⟨name, kind, type, u, hentry, hcomes, howner, hsize⟩ := hentered
    obtain ⟨hname, hbare⟩ := Prod.mk.inj hentry
    obtain rfl : kind = .variable exported := by
      rw [hvariable] at hbare
      cases kind with
      | «variable» other => exact hbare.symm
      | _ => cases hbare
    exact ⟨name, type, u, hname ▸ hnew.name_eq he, hcomes, howner, hsize⟩

/--
A procedure restores its surroundings.  Wherever a module declares a procedure and the name of the
procedure is entered, the table afterwards is the table before it with one more entry, for that
procedure, and the scope is the one before it, whether the declaration succeeds or halts.  Once the
header has been accepted the entry holds the types of the heading.  At the end of a module, however
it ends, no parameter is left, and every variable that is left has been declared outside of
procedures.
-/
theorem surroundings_restored (source header : String) (limits : Limits) :
    match State.start source limits with
    | .error _ => True
    | .ok start =>
      let depth := start.remaining + 1
      (∀ s entry name exported u, (wholeModule header).Reaches depth start s →
        s.scope.owner = .module →
        procedureName.Gives depth s (entry, name, exported) u →
        let t := endState (procedureDeclaration.run (Rule.run depth) s)
        ∃ parameters result, t.symbols =
          s.symbols.push name (.procedure exported parameters) result ∧ t.scope = s.scope ∧
          ∀ v, (procedureHeader entry name exported).Gives depth
              u.entered () v →
            ∃ heading : Heading, heading.name = ⟨name, exported⟩ ∧
              Reads u.vantage heading.rest v.vantage ∧
              Heading.ParametersHave t.types (heading.parameters.getD []) parameters ∧
              Heading.ResultHas t.types heading.result result) ∧
      let t := endState ((wholeModule header).perform start)
      ∀ index symbol, t.symbols.get index = .ok symbol →
        symbol.kind ≠ .parameter ∧ ∀ exported, symbol.kind = .variable exported → ∃ name type u,
          t.symbols.name index = .ok name ∧
          (wholeModule header).Comes depth start (some ⟨Nat,
            .declare name (.variable exported) type⟩) u ∧
          u.scope.owner = .module ∧ u.symbols.size = index := by
  cases hstart : State.start source limits with
  | error halt => trivial
  | ok start =>
    obtain ⟨hscoped, -, -⟩ := start_spec hstart
    refine ⟨fun s entry name exported u hreaches howner hname => ?_, fun index symbol hget => ?_⟩
    · obtain ⟨moment, hcomes⟩ := hreaches.comes
      obtain ⟨⟨owner, outer, inner, hs⟩, -⟩ := (honors_wholeModule header).comes hscoped hcomes
      obtain rfl : owner = .module := hs.owner.symm.trans howner
      exact exists_push_of_procedureName hs (Nat.lt_succ_of_le hcomes.remaining_le) hname rfl
    · exact left_of_wholeModule header hscoped rfl hget

end Compilation
end Oberon
