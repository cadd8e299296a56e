import Oberon.Proofs.Grammar.Phrases
import Oberon.Proofs.Grammar.Visible
import Oberon.Proofs.Translation.Module

/-!
# Copies of strings

A string literal is assigned by copying its characters.  The target of a copy has to be assignable,
and either of unknown type or an array; what the elements of the array are is not looked at.

**Targets.**  `Designator.TakesString` says by the declarations of a module to what a string is
copied: to a member of an imported module, to a whole array whatever its elements are, or to
something whose type is not known to the module.

**Main statement.**  `copies_of_strings`.
-/

namespace Oberon
namespace Grammar

/-! ### Targets by their declarations -/

/-- Nothing is known of the type: it is one of another module, or not declared. -/
def ElementType.IsUnknown : ElementType → Prop
  | basic type => type.type = .unknown
  | _ => False

/-- A string is copied to a name of the type behind indices. -/
def TypeExpression.TakesString : TypeExpression → List Expression → Prop
  | array _ _, [] => True
  | array _ elements, _ :: _ => elements.IsUnknown
  | plain type, _ => type.IsUnknown

/-- The type that a variable or a parameter is declared with. -/
def Binding.declared? : Binding → Option TypeExpression
  | .variable _ type => some type
  | .parameter _ type => some type
  | _ => none

/-- A string is copied to the designator, among bindings of a module. -/
inductive Designator.TakesString
    (m : Module) (bindings : List Binding) (c : Context) :
    Designator → Prop
  | declared
      {name : Name}
      {indices : List Expression}
      {binding : Binding}
      {type : TypeExpression}
      (hnewest : Binding.newest? bindings name.own = some binding)
      (hdeclared : binding.declared? = some type)
      (htype : type.TakesString indices) :
      TakesString m bindings c (.mk name indices)
  | imported
      {called own : String}
      {indices : List Expression}
      (himported : m.Imports c called own) :
      TakesString m bindings c (.mk (.member called own) indices)

/-! ### Types behind indices -/

/-- The type can hold a string as far as is looked at. -/
def Context.HoldsString (c : Context) (type : DataType) : Prop :=
  type = .unknown ∨ c.types.form type = .array

instance (c : Context) (type : DataType) : Decidable (c.HoldsString type) :=
  inferInstanceAs (Decidable (type = .unknown ∨ c.types.form type = .array))

section Indexed

variable {c : Context} {value d : Compilation.Designator} {indices : List Expression}

/-- An element can be assigned to if the array can. -/
theorem assignable_of_indexed? (h : indexed? c value indices = some d) :
    d.assignable = value.assignable := by
  induction indices generalizing value with
  | nil =>
    rw [indexed?, Option.some.injEq] at h
    rw [h]
  | cons index indices ih =>
    obtain ⟨_, -, h⟩ := indexed?_cons_eq_some h
    simpa using ih h

/-- The elements of something of unknown type are of unknown type. -/
theorem type_of_indexed?_unknown
    (h : indexed? c value indices = some d) (hvalue : value.type = .unknown) :
    d.type = .unknown := by
  induction indices generalizing value with
  | nil =>
    rw [indexed?, Option.some.injEq] at h
    rw [← h, hvalue]
  | cons index indices ih =>
    obtain ⟨type, htype, h⟩ := indexed?_cons_eq_some h
    refine ih h ?_
    simpa [TypeCatalog.element, hvalue] using htype.symm

variable (hc : c.types.Extends .builtin)
include hc

theorem form_unknown : c.types.form .unknown = .scalar := hc.form_eq (t := .unknown) (by decide)

theorem BasicType.form_eq (type : BasicType) : c.types.form type.type = .scalar := by
  have hword : ∀ word : Keyword, (Target.builtinType? word).isSome →
        TypeCatalog.builtin.Has (.ofKeyword word) ∧
      TypeCatalog.builtin.form (.ofKeyword word) = .scalar := by
    intro word
    cases word <;> decide
  cases type with
  | builtin word => exact (hc.form_eq (hword word.1 word.2).1).trans (hword word.1 word.2).2
  | undeclared name => exact form_unknown hc
  | member member => exact form_unknown hc

/-- The elements of arrays are no arrays. -/
theorem ElementType.Denotes.holdsString_iff
    {type : ElementType} {t : DataType} (h : type.Denotes c.types t) :
    c.HoldsString t ↔ type.IsUnknown := by
  have hpointer : ∀ base, c.types.shapes[t.number]? = some ⟨.pointer, base, 0⟩ →
      ¬ c.HoldsString t := by
    intro base hshape
    have hform : c.types.form t = .pointer :=
      congrArg Shape.form (TypeCatalog.shape_of_getElem? hshape)
    rintro (rfl | harray)
    · rw [form_unknown hc] at hform
      cases hform
    · rw [hform] at harray
      cases harray
  match type, h with
  | .pointer none, h => exact iff_of_false (hpointer _ h) id
  | .pointer (some base), h => exact iff_of_false (hpointer _ h) id
  | .procedure, h =>
    obtain rfl : t = .procedure := h
    refine iff_of_false ?_ id
    have hform : c.types.form .procedure = .scalar := hc.form_eq (t := .procedure) (by decide)
    rintro (hunknown | harray)
    · exact absurd hunknown (by decide)
    · rw [hform] at harray
      cases harray
  | .basic type, h =>
    obtain rfl : t = type.type := h
    simp [Context.HoldsString, type.form_eq hc, ElementType.IsUnknown]

theorem ElementType.Denotes.indexed_holdsString_iff
    {type : ElementType}
    (htype : type.Denotes c.types value.type)
    (h : indexed? c value indices = some d) :
    c.HoldsString d.type ↔ type.IsUnknown := by
  cases indices with
  | nil =>
    rw [indexed?, Option.some.injEq] at h
    rw [← h]
    exact htype.holdsString_iff hc
  | cons index indices =>
    -- Only something of unknown type has elements here.
    have hholds : c.HoldsString value.type := by
      obtain ⟨_, helement, -⟩ := indexed?_cons_eq_some h
      unfold TypeCatalog.element at helement
      split at helement
      · exact Or.inl ‹_›
      · split at helement
        · exact Or.inr ‹_›
        · cases helement
    have hunknown := (htype.holdsString_iff hc).1 hholds
    refine iff_of_true (Or.inl (type_of_indexed?_unknown h ?_)) hunknown
    match type, htype, hunknown with
    | .basic type, htype, hunknown => exact Eq.trans htype hunknown

/-- Whether the type of a value behind indices can hold a string is seen from the declared type. -/
theorem TypeExpression.Denotes.indexed_holdsString_iff
    {type : TypeExpression}
    (htype : type.Denotes c.types value.type)
    (h : indexed? c value indices = some d) :
    c.HoldsString d.type ↔ type.TakesString indices := by
  cases type with
  | array size elements =>
    obtain ⟨element, helement, hshape⟩ := htype
    have hshape := TypeCatalog.shape_of_getElem? hshape
    have hform : c.types.form value.type = .array := congrArg Shape.form hshape
    cases indices with
    | nil =>
      rw [indexed?, Option.some.injEq] at h
      rw [← h]
      exact iff_of_true (Or.inr hform) trivial
    | cons index indices =>
      obtain ⟨found, hfound, h⟩ := indexed?_cons_eq_some h
      have hknown : value.type ≠ .unknown := by
        intro hunknown
        rw [hunknown, form_unknown hc] at hform
        cases hform
      obtain rfl : element = found := by
        simpa [TypeCatalog.element, hknown, hform, hshape] using hfound
      exact ElementType.Denotes.indexed_holdsString_iff hc helement h
  | plain type =>
    rw [show (TypeExpression.plain type).TakesString indices =
      type.IsUnknown by cases indices <;> rfl]
    exact ElementType.Denotes.indexed_holdsString_iff hc htype h

end Indexed

/-- Where a copy is well formed, a string is copied to its target. -/
theorem Context.Holds.takesString
    {c : Context}
    {m : Module}
    {bindings : List Binding}
    {target : Designator}
    {d : Compilation.Designator}
    (h : c.Holds m bindings)
    (hvalue : target.value? c = some d)
    (hassignable : d.assignable = true)
    (hholds : c.HoldsString d.type) :
    target.TakesString m bindings c := by
  obtain ⟨name, indices⟩ := target
  obtain ⟨value, hmeans, hindexed⟩ := h.exists_means hvalue
  rw [assignable_of_indexed? hindexed] at hassignable
  cases hmeans with
  | @own _ binding _ hnewest hmeans =>
    cases binding with
    | constant k =>
      obtain rfl : value = _ := hmeans
      cases hassignable
    | «variable» v type =>
      obtain ⟨t, hdenotes, rfl⟩ := hmeans
      exact .declared hnewest rfl ((hdenotes.indexed_holdsString_iff h.types hindexed).1 hholds)
    | procedure heading =>
      obtain ⟨_, _, -, -, rfl⟩ := hmeans
      cases hassignable
    | parameter own type =>
      obtain ⟨t, hdenotes, rfl⟩ := hmeans
      exact .declared hnewest rfl ((hdenotes.indexed_holdsString_iff h.types hindexed).1 hholds)
  | imported himported => exact .imported himported

end Grammar

namespace Compilation

open Oberon.Grammar
open Oberon.Compilation.Action

/-! ### Assignments that are rejected -/

section Rejected

variable {depth : Nat} {s t v : State} {halt : Halt} {target : Grammar.Designator} {d : Designator}

/-- A statement whose right side is rejected. -/
theorem halts_statement_of_assignment
    (hs : s.remaining < depth)
    (hvalue : target.value? s.context = some d)
    (hwords : s.Translates (target.spelling ++ [.sign .assign]) "" v)
    (h : ∀ {depth}, (assignment d (target.text s.context)).Halts depth v halt t) :
    statement.Halts depth s halt t := by
  obtain ⟨u, htarget, _, hassign, rfl⟩ :=
    hwords.cut [(target.spelling, ""), ([.sign .assign], "")] (by simp) rfl
  obtain ⟨name, words, hspelling⟩ := target.spelling_eq_cons
  have hkind : s.token.kind = .identifier := by
    rw [hspelling] at htarget
    exact htarget.token_kind
  obtain ⟨depth, rfl⟩ : ∃ less, depth = less + 1 := ⟨depth - 1, by omega⟩
  have hdesignator : (textOf designator).Gives depth s (d, target.text s.context) u := by
    refine (gives_target_iff (Nat.le_of_lt_succ hs) _).2 ⟨target, ⟨hvalue, ?_⟩, rfl, htarget⟩
    rw [hassign.token_kind]
    decide
  refine (halts_call_iff .statement).2 (Gives.halts_bind ((gives_kind _).2 ⟨rfl, rfl⟩) ?_)
  rw [hkind]
  refine Gives.halts_bind hdesignator ?_
  refine Gives.halts_bind ((gives_accept_sign_iff .assign true).2 (Or.inl ⟨hassign, rfl⟩)) ?_
  exact (halts_bind_iff _ _).2 (Or.inl h)

theorem halts_assignment_of_not_assignable {text : String} (hd : d.assignable = false) :
    (assignment d text).Halts depth v (.rejected (.notAssignable d.name)) v := by
  unfold assignment
  rw [hd]
  exact (halts_bind_iff _ _).2 (Or.inl rfl)

/-- A string is not assigned to anything of another known type than an array. -/
theorem halts_assignment_of_mismatch
    {text : String}
    (hd : d.assignable = true)
    (hkind : v.token.kind = .stringLiteral)
    (hholds : ¬ v.context.HoldsString d.type) :
    (assignment d text).Halts depth v (.rejected (.type (.mismatch d.type .string))) v := by
  obtain ⟨hunknown, harray⟩ := not_or.1 hholds
  unfold assignment
  rw [hd]
  refine Gives.halts_bind ((gives_sees .stringLiteral true).2 ⟨by simp [hkind], rfl⟩) ?_
  refine Gives.halts_bind ((gives_form d.type _).2 ⟨rfl, rfl⟩) ?_
  rw [if_pos ⟨hunknown, harray⟩]
  exact (halts_bind_iff _ _).2 (Or.inl rfl)

end Rejected

end Compilation

open Compilation Grammar in
/--
In a compiled module a string is copied to members of imported modules, to whole arrays, whatever
their elements are, and to what is of unknown type.  A string literal behind any other designator
and `:=` is rejected in every state of a compilation: the designator if it is not assignable, else
the type; behind one of these it is copied.
-/
theorem copies_of_strings (name source header : String) (limits : Limits) :
    (∀ units, compile name source header limits = .ok units →
      ∃ m : Grammar.Module,
        m.SpelledBy source ∧
        units = ⟨m.implementation header, m.interface⟩ ∧
        m.Checked ∧
        ∀ b ∈ m.blocks, ∃ bindings returns,
          m.Has b bindings returns ∧
          ∀ target literal, .copy target literal ∈ bodyStatements b.body →
            ∃ d,
              target.value? b.around = some d ∧
              d.assignable = true ∧
              b.around.HoldsString d.type ∧
              target.TakesString m bindings b.around) ∧
    ∀ (depth : Nat) (s v : State) (target : Grammar.Designator) (d : Compilation.Designator),
      s.remaining < depth →
      target.value? s.context = some d →
      s.Translates (target.spelling ++ [.sign .assign]) "" v →
      v.token.kind = .stringLiteral →
      (d.assignable = false →
        statement.Halts depth s (.rejected (.notAssignable d.name)) v) ∧
      (d.assignable = true → ¬ s.context.HoldsString d.type →
        statement.Halts depth s (.rejected (.type (.mismatch d.type .string))) v) ∧
      (d.assignable = true → s.context.HoldsString d.type →
        ∀ literal w, v.Translates [(.stringLiteral, literal)] "" w →
          statement.Gives depth s ()
            (w.write ((Statement.copy target literal).text s.context))) := by
  constructor
  · intro units h
    obtain ⟨m, -, -, hspelled, -, -, hunits, -, hchecked⟩ := exists_checked_compiled h
    refine ⟨m, hspelled, hunits, hchecked, fun b hb => ?_⟩
    obtain ⟨bindings, returns, hplace⟩ := Module.exists_has hb
    refine ⟨bindings, returns, hplace, fun target literal hcopy => ?_⟩
    obtain ⟨hholds, result, -, hbody⟩ := hchecked.holds hplace
    obtain ⟨d, hvalue, hassignable, htype⟩ := BodyWellFormed.statement b.body hbody _ hcopy
    exact ⟨d, hvalue, hassignable, htype, hholds.takesString hvalue hassignable htype⟩
  · intro depth s v target d hs hvalue hwords hkind
    refine ⟨fun hd => ?_, fun hd hholds => ?_, fun hd hholds literal w hliteral => ?_⟩
    · exact halts_statement_of_assignment hs hvalue hwords (halts_assignment_of_not_assignable hd)
    · refine halts_statement_of_assignment hs hvalue hwords
        (halts_assignment_of_mismatch hd hkind ?_)
      rwa [hwords.context_eq]
    · refine (recognizes_statements depth s hs () _).2
        ⟨.copy target literal, ⟨d, hvalue, hd, hholds⟩, trivial, ?_⟩
      simpa [Statement.spelling] using (hwords.trans hliteral).trans (.written w _)

section Targets

open Compilation Grammar

/-- Behind the action the source goes on with a name, `:=` and a string. -/
structure AssignsString
    {α : Type}
    (action : Action α)
    (source name : String)
    (s v : State)
    (d : Compilation.Designator) :
    Prop where
  state : State.behindAction? action source = some s
  value : (Designator.plain name).value? s.context = some d
  words : s.behind? ((Designator.plain name).spelling ++ [.sign .assign]) = some v
  literal : v.token.kind = .stringLiteral

theorem AssignsString.translates
    {α : Type}
    {action : Action α}
    {source name : String}
    {s v : State}
    {d : Compilation.Designator}
    (h : AssignsString action source name s v d) :
    s.Translates ((Designator.plain name).spelling ++ [.sign .assign]) "" v := by
  simpa using State.translates_of_behind? h.words ""

theorem exists_assignsString
    {α : Type}
    {action : Action α}
    {source name : String}
    {p : State → State → Compilation.Designator → Bool}
    (h : (State.behindAction? action source).any (fun s =>
      ((Designator.plain name).value? s.context).any fun d =>
        (s.behind? ((Designator.plain name).spelling ++ [.sign .assign])).any fun v =>
          decide (v.token.kind = .stringLiteral) && p s v d) = true) :
    ∃ s v d, AssignsString action source name s v d ∧ p s v d = true := by
  obtain ⟨s, hs, h⟩ := (Option.any_eq_true _ _).1 h
  obtain ⟨d, hd, h⟩ := (Option.any_eq_true _ _).1 h
  obtain ⟨v, hv, h⟩ := (Option.any_eq_true _ _).1 h
  obtain ⟨hliteral, hp⟩ := Bool.and_eq_true_iff.1 h
  exact ⟨s, v, d, ⟨hs, hd, hv, of_decide_eq_true hliteral⟩, hp⟩

/-- A string is assigned to a constant, to a number, and to an array of numbers. -/
theorem copies_of_strings_targets :
    (∃ s v d,
      AssignsString constantDeclaration "c=1;c:=\"a\"" "c" s v d ∧
      statement.Halts (s.remaining + 1) s (.rejected (.notAssignable d.name)) v) ∧
    (∃ s v d,
      AssignsString variableDeclaration "x:INTEGER;x:=\"a\"" "x" s v d ∧
      statement.Halts (s.remaining + 1) s (.rejected (.type (.mismatch d.type .string))) v) ∧
    ∃ s v d w,
      AssignsString variableDeclaration "a:ARRAY 3 OF INTEGER;a:=\"hi\"" "a" s v d ∧
      v.behind? [(.stringLiteral, "\"hi\"")] = some w ∧
      statement.Gives (s.remaining + 1) s ()
        (w.write ((Statement.copy (.plain "a") "\"hi\"").text s.context)) := by
  have hcopies (name : String) (s v : State) (d : Compilation.Designator) :=
    (copies_of_strings "M.Mod" "" "M.h" {}).2 (s.remaining + 1) s v (.plain name) d
      (Nat.lt_succ_self _)
  refine ⟨?_, ?_, ?_⟩
  · have htarget : ∃ s v d,
        AssignsString constantDeclaration "c=1;c:=\"a\"" "c" s v d ∧
        decide (d.assignable = false) = true :=
      exists_assignsString (by decide +kernel)
    obtain ⟨s, v, d, h, hd⟩ := htarget
    obtain ⟨hhalts, -, -⟩ := hcopies "c" s v d h.value h.translates h.literal
    exact ⟨s, v, d, h, hhalts (of_decide_eq_true hd)⟩
  · have htarget : ∃ s v d,
        AssignsString variableDeclaration "x:INTEGER;x:=\"a\"" "x" s v d ∧
        decide (d.assignable = true ∧ ¬ s.context.HoldsString d.type) = true :=
      exists_assignsString (by decide +kernel)
    obtain ⟨s, v, d, h, hd⟩ := htarget
    obtain ⟨hassignable, hholds⟩ := of_decide_eq_true hd
    obtain ⟨-, hhalts, -⟩ := hcopies "x" s v d h.value h.translates h.literal
    exact ⟨s, v, d, h, hhalts hassignable hholds⟩
  · have htarget : ∃ s v d,
        AssignsString variableDeclaration "a:ARRAY 3 OF INTEGER;a:=\"hi\"" "a" s v d ∧
        decide (d.assignable = true ∧ s.context.HoldsString d.type ∧
          (v.behind? [(.stringLiteral, "\"hi\"")]).isSome) = true :=
      exists_assignsString (by decide +kernel)
    obtain ⟨s, v, d, h, hd⟩ := htarget
    obtain ⟨hassignable, hholds, hliteral⟩ := of_decide_eq_true hd
    obtain ⟨w, hw⟩ := Option.isSome_iff_exists.1 hliteral
    obtain ⟨-, -, hgives⟩ := hcopies "a" s v d h.value h.translates h.literal
    refine ⟨s, v, d, w, h, hw, hgives hassignable hholds _ w ?_⟩
    simpa using State.translates_of_behind? hw ""

end Targets

end Oberon
