import Oberon.Proofs.Distinct
import Oberon.Proofs.Translation.Factor

/-!
# Members of the module itself

A name behind the name of the module that is compiled, as in `M.x`, is looked up like `x` alone: it
stands for the newest entry of the table with the name `x`.

**Hidden names.**  A parameter or a local variable `x` of the open procedure hides the `x` of the
module, and `M.x` then stands for the parameter or the local variable, whether or not the module has
an `x` (`State.Scoped.exists_find_of_hides`). **Other names** stand for entries of the module
(`State.Scoped.atModuleLevel_iff`), and are rejected as undeclared if the module has no such entry
(`halts_designator`).

**Main statement.**  `members_of_own_module`.
-/

namespace Oberon
namespace Compilation

open Oberon.Grammar
open Oberon.Compilation.Action

/-- The name stands for the module that is compiled. -/
def State.NamesItself (s : State) (called : String) : Prop :=
  ∃ index symbol, s.context.moduleIndex? called = some index ∧ s.symbols.get index = .ok symbol ∧
    symbol.kind = .thisModule

/--
The entry at an index is one of the module: behind the floor of an open procedure stand its
parameters and local variables.
-/
def State.AtModuleLevel (s : State) (index : Nat) : Prop :=
  s.scope.owner = .procedure → index < s.scope.floor

/-- A parameter or a local variable of the open procedure has the name. -/
def State.Hides (s : State) (name : String) : Prop :=
  s.scope.owner = .procedure ∧ s.Declares name

/-- The entry at an index is the newest one with a name, and stands for a value. -/
structure State.Finds (s : State) (name : String) (index : Nat) (value : Designator) : Prop where
  name_eq : s.symbols.name index = .ok name
  newest : ∀ later, index < later → s.symbols.name later ≠ .ok name
  value_eq : ∃ symbol, s.symbols.get index = .ok symbol ∧ Context.valueOf? symbol name = some value

variable {s t : State} {depth : Nat} {called own : String}

/-! ### The name behind the point -/

/-- As many coming tokens are the same words. -/
theorem State.Passes.unique
    {u : State} {words others : List Word} (h : s.Passes words t) (h' : s.Passes others u)
    (hlength : words.length = others.length) : words = others ∧ t = u := by
  induction words generalizing s others with
  | nil =>
    obtain rfl : others = [] := List.length_eq_zero_iff.1 hlength.symm
    exact ⟨rfl, h.trans h'.symm⟩
  | cons word words ih =>
    cases others with
    | nil => cases hlength
    | cons other others =>
      obtain ⟨hword, v, htake, hrest⟩ := h
      obtain ⟨hword', v', htake', hrest'⟩ := h'
      obtain rfl : v = v' := by simpa [htake] using htake'
      obtain ⟨rfl, rfl⟩ := ih hrest hrest' (Nat.succ.inj hlength)
      exact ⟨by rw [← hword, ← hword'], rfl⟩

/-- A member of the module itself stands for what its name alone stands for. -/
theorem State.NamesItself.denotes?_member (h : s.NamesItself called) (own : String) :
    s.context.denotes? (.member called own) = s.context.denotes? (.plain own) := by
  obtain ⟨index, symbol, hindex, hget, hkind⟩ := h
  have hget : s.context.symbols.get index = .ok symbol := hget
  simp [Context.denotes?, hindex, hget, Except.toOption, hkind]

/--
The name in front of a designator that begins with a member of the module itself is that member.
-/
theorem State.NamesItself.eq_of_designatorName
    {u : State}
    {found : String × Designator}
    (hs : s.NamesItself called)
    (hwords : s.Translates (Name.member called own).spelling "" t)
    (h : designatorName.Gives depth s found u) :
    s.context.denotes? (.plain own) = some found ∧ u = t := by
  obtain ⟨name, hdenotes, hname⟩ := (gives_designatorName_iff found).1 h
  obtain ⟨t, hpasses, rfl⟩ := hwords
  obtain ⟨u, hpasses', rfl⟩ := hname
  cases name with
  | plain other =>
    -- The module itself is no value.
    have hword : Word.identifier other = .identifier called := hpasses'.1.symm.trans hpasses.1
    obtain rfl : other = called := congrArg Prod.snd hword
    obtain ⟨target, symbol, htarget, hget, hkind⟩ := hs
    obtain ⟨index, hindex, hresolve⟩ := (s.context.moduleIndex?_eq_some_iff other target).1 htarget
    obtain ⟨index', symbol', hindex', hget', hvalue, -⟩ :=
      (s.context.denotes?_plain_iff other found).1 hdenotes
    obtain rfl : index' = index := by simpa [hindex'] using hindex
    obtain rfl : target = index' := by
      simpa [Context.resolve_of_valueOf? hget' hvalue] using hresolve.symm
    obtain rfl : symbol' = symbol := Except.ok.inj (hget'.symm.trans hget)
    simp [Context.valueOf?, hkind] at hvalue
  | member module member =>
    obtain ⟨hspelling, rfl⟩ := hpasses'.unique hpasses rfl
    simp only [Name.spelling, Word.identifier, List.cons.injEq, Prod.mk.injEq, true_and, and_true]
      at hspelling
    obtain ⟨rfl, rfl⟩ := hspelling
    rw [hs.denotes?_member] at hdenotes
    exact ⟨hdenotes, rfl⟩

/-- Behind a member of the module itself the indices are those of what its name alone stands for. -/
theorem exists_indices_of_designator
    {u : State}
    {d : Designator}
    (hs : s.NamesItself called)
    (hwords : s.Translates (Name.member called own).spelling "" t)
    (hremaining : s.remaining ≤ depth)
    (h : designator.Gives depth s d u) :
    ∃ found indices,
      s.context.denotes? (.plain own) = some found ∧
      indexed? s.context found.2 indices = some d ∧
      s.Translates (Grammar.Designator.mk (.member called own) indices).spelling
        ((Grammar.Designator.mk (.member called own) indices).text s.context) u := by
  simp only [designator, gives_bind, gives_write_iff, gives_turns_iff advancing_indexed] at h
  obtain ⟨found, v, hname, _, w, hwrite, hturns⟩ := h
  obtain ⟨hdenotes, rfl⟩ := hs.eq_of_designatorName hwords hname
  have hroom : w.remaining < depth :=
    Nat.lt_of_le_of_lt hwrite.remaining_le
      (Nat.lt_of_lt_of_le (hwords.remaining_lt (by simp [Word.identifier])) hremaining)
  have hall := hwords.trans hwrite
  rw [turns_indexed_iff (recognizes_expressions depth) hroom, hall.context_eq] at hturns
  obtain ⟨indices, hindexed, -, htranslates⟩ := hturns
  refine ⟨found, indices, hdenotes, hindexed, ?_⟩
  have hmember : s.context.denotes? (.member called own) = some found := by
    rw [hs.denotes?_member, hdenotes]
  rw [Designator.spelling, Designator.text, Context.owner_of_denotes? hmember,
    ← Context.name_of_denotes? hmember]
  simpa using hall.trans htranslates

/-- A member of the module itself that is declared nowhere. -/
theorem halts_designator
    (hs : s.NamesItself called) (hwords : s.Translates (Name.member called own).spelling "" t)
    (hfind : s.symbols.find own = .ok none) :
    designator.Halts depth s (.rejected (.undeclared (called ++ "." ++ own))) t := by
  obtain ⟨target, symbol, htarget, hget, hkind⟩ := hs
  obtain ⟨index, hindex, hresolve⟩ := (s.context.moduleIndex?_eq_some_iff called target).1 htarget
  obtain ⟨u, hname, v, hdot, _, hmember, rfl⟩ := hwords.cut
    [([.identifier called], ""), ([.sign .dot], ""), ([.identifier own], "")] rfl rfl
  obtain ⟨hword, htake⟩ := (State.translates_take_iff s u (.identifier called)).1 hname
  obtain ⟨hidentifier, rfl⟩ := (s.token.word_eq_identifier_iff called).1 hword
  have hsymbols : u.symbols = s.symbols := hname.symbols_eq
  have hsymbols' : t.symbols = s.symbols := hwords.symbols_eq
  have hhalts :
      designatorName.Halts depth s (.rejected (.undeclared (s.token.lexeme ++ "." ++ own))) t := by
    refine Gives.halts_bind ((gives_look _).2 ⟨rfl, rfl⟩) ?_
    dsimp only
    rw [if_pos hidentifier]
    refine Gives.halts_bind ((gives_find _ _).2 ⟨hindex, rfl⟩) ?_
    refine Gives.halts_bind ((gives_resolve _ _).2 ⟨hresolve, rfl⟩) ?_
    refine Gives.halts_bind ((gives_take ()).2 htake) ?_
    refine Gives.halts_bind ((gives_symbol _ _).2 ⟨hsymbols ▸ hget, rfl⟩) ?_
    rw [hkind]
    refine Gives.halts_bind ((gives_expect_sign_iff .dot ()).2 hdot) ?_
    refine Gives.halts_bind ((gives_identifier_iff own).2 hmember) ?_
    refine Gives.halts_bind ((gives_find own none).2 ⟨hsymbols' ▸ hfind, rfl⟩) ?_
    rfl
  exact (halts_bind_iff _ _).2 (Or.inl hhalts)

section Scoped

variable {owner : Scope.Owner} {outer inner : List (String × Symbol.Kind)} {index : Nat}

theorem State.Scoped.newest_of_find
    (h : s.Scoped owner outer inner) (hfind : s.symbols.find own = .ok (some index)) :
    s.symbols.name index = .ok own ∧ ∀ later, index < later → s.symbols.name later ≠ .ok own := by
  obtain ⟨⟨kind, hkind⟩, hlater⟩ := h.symbols.newest hfind
  refine ⟨h.name_eq_ok_iff.2 ⟨kind, hkind⟩, fun later hlt hname => ?_⟩
  obtain ⟨other, hother⟩ := h.name_eq_ok_iff.1 hname
  exact hlater later _ hlt hother rfl

/--
Only a parameter or a local variable keeps the newest entry of a name from being one of the module.
-/
theorem State.Scoped.atModuleLevel_iff
    (h : s.Scoped owner outer inner) (hfind : s.symbols.find own = .ok (some index)) :
    s.AtModuleLevel index ↔ ¬ s.Hides own := by
  obtain ⟨hname, hlater⟩ := h.newest_of_find hfind
  constructor
  · rintro hlevel ⟨howner, place, hfloor, hlocal⟩
    have hlt := hlevel howner
    exact hlater place (by omega) hlocal
  · intro hhides howner
    by_contra hge
    exact hhides ⟨howner, index, by omega, hname⟩

/-- A name that is hidden is found, and is one that can be assigned to. -/
theorem State.Scoped.exists_find_of_hides
    (h : s.Scoped owner outer inner) (hhides : s.Hides own) :
    ∃ index symbol,
      s.symbols.find own = .ok (some index) ∧
      s.scope.floor ≤ index ∧
      s.symbols.get index = .ok symbol ∧
      (symbol.kind = .parameter ∨ symbol.kind = .variable false) := by
  obtain ⟨found, hfind, hnewest⟩ := h.symbols.exists_find own
  obtain ⟨howner, hdeclares⟩ := id hhides
  cases found with
  | none =>
    obtain ⟨_, -, hlocal⟩ := hdeclares
    obtain ⟨kind, hkind⟩ := h.name_eq_ok_iff.1 hlocal
    exact absurd rfl (hnewest _ (List.mem_of_getElem? hkind))
  | some index =>
    have hfloor : s.scope.floor ≤ index := by
      by_contra hlt
      exact (h.atModuleLevel_iff hfind).1 (fun _ => by omega) hhides
    obtain ⟨kind, hkind⟩ := hnewest.1
    obtain ⟨symbol, hget, hbare⟩ := h.symbols.exists_get hkind
    refine ⟨index, symbol, hfind, hfloor, hget, ?_⟩
    obtain rfl : owner = .procedure := h.owner.symm.trans howner
    rw [h.floor] at hfloor
    rw [List.getElem?_append_right hfloor] at hkind
    obtain hdeclares | ⟨hmodule, -⟩ := h.declared.declares _ (List.mem_of_getElem? hkind)
    · rw [← hbare] at hdeclares
      cases hcase : symbol.kind with
      | parameter => exact Or.inl rfl
      | «variable» exported =>
        rw [hcase] at hdeclares
        exact Or.inr (congrArg Symbol.Kind.variable hdeclares)
      | _ =>
        rw [hcase] at hdeclares
        exact hdeclares.elim
    · cases hmodule

theorem State.Scoped.name_ne_of_find_none
    (h : s.Scoped owner outer inner) (hfind : s.symbols.find own = .ok none) (index : Nat) :
    s.symbols.name index ≠ .ok own := by
  intro hname
  obtain ⟨kind, hkind⟩ := h.name_eq_ok_iff.1 hname
  exact absurd rfl (h.symbols.newest hfind _ (List.mem_of_getElem? hkind))

end Scoped

theorem exists_scoped_of_reaches
    {source header : String}
    {limits : Limits}
    {start u : State}
    (hstart : State.start source limits = .ok start)
    (hreaches : (wholeModule header).Reaches (start.remaining + 1) start u) :
    ∃ owner outer inner, u.Scoped owner outer inner ∧ u.remaining ≤ start.remaining := by
  obtain ⟨moment, hcomes⟩ := hreaches.comes
  obtain ⟨⟨owner, outer, inner, hu⟩, -⟩ :=
    (honors_wholeModule header).comes (start_spec hstart).1 hcomes
  exact ⟨owner, outer, inner, hu, hcomes.remaining_le⟩

/--
At every state of a compilation, a designator that begins with a member `own` of the module itself
stands for the newest entry with the name `own`, and for its elements.  That entry is one of the
module if and only if no parameter or local variable of the open procedure is called `own`; then a
name that the module has not declared is rejected as undeclared.  If a parameter or local variable
is called so, the member is accepted and stands for it.
-/
theorem members_of_own_module (source header : String) (limits : Limits) :
    match State.start source limits with
    | .error _ => True
    | .ok start =>
      let depth := start.remaining + 1
      ∀ (u v : State) (called own : String),
        (wholeModule header).Reaches depth start u →
        u.NamesItself called →
        u.Translates (Name.member called own).spelling "" v →
        (∀ d w, designator.Gives depth u d w →
          ∃ index value indices,
            u.Finds own index value ∧
            indexed? u.context value indices = some d ∧
            u.Translates (Grammar.Designator.mk (.member called own) indices).spelling
              ((Grammar.Designator.mk (.member called own) indices).text u.context) w ∧
            (u.AtModuleLevel index ↔ ¬ u.Hides own)) ∧
        (u.Hides own →
          ∃ index value,
            u.Finds own index value ∧
            u.scope.floor ≤ index ∧
            value.assignable = true ∧
            designatorName.Gives depth u (u.moduleName, value) v) ∧
        (¬ u.Hides own →
          (∀ index, u.AtModuleLevel index → u.symbols.name index ≠ .ok own) →
          designator.Halts depth u (.rejected (.undeclared (called ++ "." ++ own))) v) := by
  cases hstart : State.start source limits with
  | error halt => trivial
  | ok start =>
    intro u v called own hreaches hitself hwords
    obtain ⟨owner, outer, inner, hu, hremaining⟩ := exists_scoped_of_reaches hstart hreaches
    refine ⟨fun d w hgives => ?_, fun hhides => ?_, fun hhides hundeclared => ?_⟩
    · obtain ⟨found, indices, hdenotes, hindexed, htranslates⟩ :=
        exists_indices_of_designator hitself hwords (Nat.le_succ_of_le hremaining) hgives
      obtain ⟨index, symbol, hfind, hget, hvalue, -⟩ :=
        (u.context.denotes?_plain_iff own found).1 hdenotes
      obtain ⟨hname, hnewest⟩ := hu.newest_of_find hfind
      exact ⟨index, found.2, indices, ⟨hname, hnewest, symbol, hget, hvalue⟩, hindexed, htranslates,
        hu.atModuleLevel_iff hfind⟩
    · obtain ⟨index, symbol, hfind, hfloor, hget, hkind⟩ := hu.exists_find_of_hides hhides
      obtain ⟨hname, hnewest⟩ := hu.newest_of_find hfind
      have hvalue : Context.valueOf? symbol own =
          some { name := own, type := symbol.type, assignable := true } := by
        obtain hkind | hkind := hkind <;> simp [Context.valueOf?, hkind]
      refine ⟨index, _, ⟨hname, hnewest, symbol, hget, hvalue⟩, hfloor, rfl, ?_⟩
      refine (gives_designatorName_iff _).2 ⟨.member called own, ?_, hwords⟩
      rw [hitself.denotes?_member, Context.denotes?_plain_iff]
      exact ⟨index, symbol, hfind, hget, hvalue, rfl⟩
    · obtain ⟨found, hfind, hnewest⟩ := hu.symbols.exists_find own
      cases found with
      | none => exact halts_designator hitself hwords hfind
      | some index =>
        have hlevel := (hu.atModuleLevel_iff hfind).2 hhides
        exact absurd (hu.newest_of_find hfind).1 (hundeclared index hlevel)

/-- A state that a compilation comes through, at a member of a module and behind it. -/
structure MemberAhead (source called own : String) (start u v : State) : Prop where
  start_eq : State.start source {} = .ok start
  reaches : (wholeModule "M.h").Reaches (start.remaining + 1) start u
  itself : u.NamesItself called
  words : u.Translates (Name.member called own).spelling "" v

theorem exists_memberAhead
    {source called own : String}
    {p : State → Bool}
    (h : (State.start source {}).toOption.any (fun start =>
      ((wholeModule "M.h").visited (start.remaining + 1) start).any fun u =>
        (u.behind? (Name.member called own).spelling).isSome && p u &&
          (u.context.moduleIndex? called).any fun index =>
            (u.symbols.get index).toOption.any fun symbol =>
              decide (symbol.kind = .thisModule)) = true) :
    ∃ start u v, MemberAhead source called own start u v ∧ p u = true := by
  obtain ⟨start, hstart, h⟩ := State.exists_start_of_any h
  obtain ⟨u, hvisited, h⟩ := List.any_eq_true.1 h
  obtain ⟨⟨hwords, hp⟩, h⟩ := by simpa only [Bool.and_eq_true_iff] using h
  obtain ⟨v, hv⟩ := Option.isSome_iff_exists.1 hwords
  obtain ⟨index, hindex, h⟩ := (Option.any_eq_true _ _).1 h
  obtain ⟨symbol, hget, hkind⟩ := (Option.any_eq_true _ _).1 h
  have hitself : u.NamesItself called :=
    ⟨index, symbol, hindex, toOption_eq_some_iff.1 hget, of_decide_eq_true hkind⟩
  have hwords : u.Translates (Name.member called own).spelling "" v := by
    simpa using State.translates_of_behind? hv ""
  exact ⟨start, u, v, ⟨hstart, reaches_of_mem_visited hvisited, hitself, hwords⟩, hp⟩

/-- In a procedure with a parameter `x`, `M.x` is that parameter; elsewhere it may be undeclared. -/
theorem members_of_own_module_parameter :
    (∃ start u v,
      MemberAhead "MODULE M;PROCEDURE P(x:INTEGER);BEGIN M.x" "M" "x" start u v ∧
      u.Hides "x" ∧
      ∃ index value,
        u.Finds "x" index value ∧
        u.scope.floor ≤ index ∧
        designatorName.Gives (start.remaining + 1) u (u.moduleName, value) v) ∧
    ∃ start u v,
      MemberAhead "MODULE M;BEGIN M.x" "M" "x" start u v ∧
      ¬ u.Hides "x" ∧
      designator.Halts (start.remaining + 1) u (.rejected (.undeclared "M.x")) v := by
  constructor
  · have hahead : ∃ start u v,
        MemberAhead "MODULE M;PROCEDURE P(x:INTEGER);BEGIN M.x" "M" "x" start u v ∧
        (decide (u.scope.owner = .procedure) &&
          (u.symbols.find "x").toOption.any fun found =>
            found.any fun index => decide (u.scope.floor ≤ index)) = true :=
      exists_memberAhead (by decide +kernel)
    obtain ⟨start, u, v, h, hchecked⟩ := hahead
    obtain ⟨howner, hchecked⟩ := Bool.and_eq_true_iff.1 hchecked
    obtain ⟨found, hfind, hchecked⟩ := (Option.any_eq_true _ _).1 hchecked
    obtain ⟨index, rfl, hfloor⟩ := (Option.any_eq_true _ _).1 hchecked
    obtain ⟨_, _, _, hu, -⟩ := exists_scoped_of_reaches h.start_eq h.reaches
    have hname : u.symbols.name index = .ok "x" :=
      (hu.newest_of_find (toOption_eq_some_iff.1 hfind)).1
    have hhides : u.Hides "x" := ⟨of_decide_eq_true howner, index, of_decide_eq_true hfloor, hname⟩
    have hstart := h.start_eq
    generalize "MODULE M;PROCEDURE P(x:INTEGER);BEGIN M.x" = source at h hstart ⊢
    generalize ({} : Limits) = limits at hstart
    have hmembers := members_of_own_module source "M.h" limits
    rw [hstart] at hmembers
    obtain ⟨-, hfinds, -⟩ := hmembers u v "M" "x" h.reaches h.itself h.words
    obtain ⟨index, value, hfinds, hfloor, -, hgives⟩ := hfinds hhides
    exact ⟨start, u, v, h, hhides, index, value, hfinds, hfloor, hgives⟩
  · have hahead : ∃ start u v,
        MemberAhead "MODULE M;BEGIN M.x" "M" "x" start u v ∧
        decide (u.scope.owner = .module ∧ u.symbols.find "x" = .ok none) = true :=
      exists_memberAhead (by decide +kernel)
    obtain ⟨start, u, v, h, hchecked⟩ := hahead
    obtain ⟨howner, hfind⟩ := of_decide_eq_true hchecked
    obtain ⟨_, _, _, hu, -⟩ := exists_scoped_of_reaches h.start_eq h.reaches
    have hhides : ¬ u.Hides "x" := by
      rintro ⟨hprocedure, -⟩
      rw [howner] at hprocedure
      cases hprocedure
    have hstart := h.start_eq
    generalize "MODULE M;BEGIN M.x" = source at h hstart ⊢
    generalize ({} : Limits) = limits at hstart
    have hmembers := members_of_own_module source "M.h" limits
    rw [hstart] at hmembers
    obtain ⟨-, -, hhalts⟩ := hmembers u v "M" "x" h.reaches h.itself h.words
    exact ⟨start, u, v, h, hhides,
      hhalts hhides fun index _ => hu.name_ne_of_find_none hfind index⟩

end Compilation
end Oberon
