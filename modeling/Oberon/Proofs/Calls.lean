import Oberon.Proofs.Grammar.Phrases
import Oberon.Proofs.Grammar.Visible
import Oberon.Proofs.Translation.Module

/-!
# Calls

What can be called in a module, as a factor, as a statement with arguments or as a statement that is
a designator alone.

**Callees.**  `Designator.Called` says by the declarations of a module what a call amounts to.  A
procedure of the module takes arguments that suit its parameters, and gives its result.  Everything
else that has a name can be called too, whatever its type is: constants, variables, parameters,
their elements and the members of imported modules take any arguments, and the type of such a call
is unknown.

**Main statement.**  `callees_of_calls`.
-/

namespace Oberon
namespace Grammar

/-- A designator that is called, and the arguments. -/
structure Call where
  target : Designator
  arguments : List Expression

def Factor.calls : Factor → List Call
  | .call target arguments => [⟨target, arguments⟩]
  | _ => []

def Statement.calls : Statement → List Call
  | .call target arguments => [⟨target, arguments⟩]
  | .bareCall target => [⟨target, []⟩]
  | _ => []

/-- The calls in a body, by statements and by factors. -/
def bodyCalls (body : Body) : List Call :=
  (bodyStatements body).flatMap Statement.calls ++ (bodyFactors body).flatMap Factor.calls

/--
A call of the designator with arguments of these types gives a value of the type, among bindings of
a module.
-/
inductive Designator.Called
    (m : Module) (bindings : List Binding) (c : Context) (arguments : List DataType) :
    Designator → DataType → Prop
  | procedure
      {name : Name}
      {heading : Heading}
      {parameters : List DataType}
      {result : DataType}
      (hnewest : Binding.newest? bindings name.own = some (.procedure heading))
      (hparameters : Heading.ParametersHave c.types (heading.parameters.getD []) parameters)
      (hresult : Heading.ResultHas c.types heading.result result)
      (hsuits : suits c (some parameters) arguments = true) :
      Called m bindings c arguments (.mk name []) result
  | value
      {name : Name}
      {indices : List Expression}
      {binding : Binding}
      (hnewest : Binding.newest? bindings name.own = some binding)
      (hother : ∀ heading, binding ≠ .procedure heading) :
      Called m bindings c arguments (.mk name indices) .unknown
  | imported
      {called own : String}
      {indices : List Expression}
      (himported : m.Imports c called own) :
      Called m bindings c arguments (.mk (.member called own) indices) .unknown

/-! ### What is called -/

section Indexed

variable
  {c : Context} {value d : Compilation.Designator} {index : Expression} {indices : List Expression}

theorem callType_of_indexed?
    (h : indexed? c value indices = some d) (hvalue : value.callType = .unknown) :
    d.callType = .unknown := by
  induction indices generalizing value with
  | nil =>
    rw [indexed?, Option.some.injEq] at h
    rw [← h, hvalue]
  | cons index indices ih =>
    obtain ⟨_, -, h⟩ := indexed?_cons_eq_some h
    exact ih h rfl

/-- Nothing is known of a call of an element, and a procedure has none. -/
theorem callType_of_indexed?_cons
    (hc : c.types.Extends .builtin) (h : indexed? c value (index :: indices) = some d) :
    d.callType = .unknown ∧ value.type ≠ .procedure := by
  obtain ⟨type, htype, h⟩ := indexed?_cons_eq_some h
  refine ⟨callType_of_indexed? h rfl, fun hprocedure => ?_⟩
  have hform : c.types.form .procedure = .scalar := hc.form_eq (t := .procedure) (by decide)
  have hknown : DataType.procedure ≠ .unknown := by decide
  simp [TypeCatalog.element, hprocedure, hform, hknown] at htype

theorem Context.callType_of_valueOf?
    {symbol : Symbol}
    {name : String}
    (h : valueOf? symbol name = some d)
    (hnone : d.parameters = none) :
    d.callType = .unknown := by
  unfold valueOf? at h
  split at h <;> cases h
  · cases hnone
  all_goals rfl

theorem Context.callType_of_denotes?
    {name : Name}
    {found : String × Compilation.Designator}
    (h : c.denotes? name = some found)
    (hnone : found.2.parameters = none) :
    found.2.callType = .unknown := by
  have hplain (own : String) (h : c.denotes? (.plain own) = some found) :
      found.2.callType = .unknown := by
    obtain ⟨index, symbol, -, -, hvalue, -⟩ := (c.denotes?_plain_iff own found).1 h
    exact callType_of_valueOf? hvalue hnone
  cases name with
  | plain own => exact hplain own h
  | member called own =>
    obtain ⟨_, _, _, -, -, -, ⟨-, h⟩ | ⟨-, -, hvalue⟩⟩ :=
      (c.denotes?_member_iff called own found).1 h
    · exact hplain own h
    · rw [hvalue]

/-- Nothing is known of a call of what is no procedure of the module. -/
theorem Designator.callType_of_value?
    {target : Designator} (h : target.value? c = some d) (hnone : d.parameters = none) :
    d.callType = .unknown := by
  obtain ⟨name, indices⟩ := target
  obtain ⟨found, hfound, hindexed⟩ := Option.bind_eq_some_iff.1 h
  cases indices with
  | nil =>
    obtain rfl : found.2 = d := Option.some.inj hindexed
    exact Context.callType_of_denotes? hfound hnone
  | cons index indices =>
    obtain ⟨_, -, hindexed⟩ := indexed?_cons_eq_some hindexed
    exact callType_of_indexed? hindexed rfl

end Indexed

variable {c : Context} {m : Module} {bindings : List Binding}

/-- A designator that stands for something can be called. -/
theorem Context.Holds.called
    {target : Designator}
    {d : Compilation.Designator}
    {types : List DataType}
    (h : c.Holds m bindings)
    (hvalue : target.value? c = some d)
    (hsuits : suits c d.parameters types = true) :
    target.Called m bindings c types d.callType := by
  obtain ⟨name, indices⟩ := target
  obtain ⟨value, hmeans, hindexed⟩ := h.exists_means hvalue
  cases hmeans with
  | @own _ binding _ hnewest hmeans =>
    cases binding with
    | procedure heading =>
      obtain ⟨parameters, result, hparameters, hresult, rfl⟩ := hmeans
      cases indices with
      | nil =>
        rw [indexed?, Option.some.injEq] at hindexed
        subst hindexed
        exact .procedure hnewest hparameters hresult hsuits
      | cons index indices => exact absurd rfl (callType_of_indexed?_cons h.types hindexed).2
    | constant k =>
      obtain rfl : value = _ := hmeans
      rw [callType_of_indexed? hindexed rfl]
      exact .value hnewest (by simp)
    | «variable» v type =>
      obtain ⟨t, -, rfl⟩ := hmeans
      rw [callType_of_indexed? hindexed rfl]
      exact .value hnewest (by simp)
    | parameter own type =>
      obtain ⟨t, -, rfl⟩ := hmeans
      rw [callType_of_indexed? hindexed rfl]
      exact .value hnewest (by simp)
  | imported himported =>
    rw [callType_of_indexed? hindexed rfl]
    exact .imported himported

/-- The type of a call as a factor. -/
theorem Factor.type?_call_eq_some_iff
    (c : Context) (target : Designator) (arguments : List Expression) (type : DataType) :
    (Factor.call target arguments).type? c = some type ↔
      ∃ d types,
        target.value? c = some d ∧
        argumentTypes? c arguments = some types ∧
        suits c d.parameters types = true ∧
        type = d.callType := by
  simp only [Factor.type?, Option.bind_eq_bind, Option.bind_eq_some_iff,
    Option.ite_none_right_eq_some, Option.some.injEq]
  constructor
  · rintro ⟨d, hvalue, types, htypes, hsuits, rfl⟩
    exact ⟨d, types, hvalue, htypes, hsuits, rfl⟩
  · rintro ⟨d, types, hvalue, htypes, hsuits, rfl⟩
    exact ⟨d, hvalue, types, htypes, hsuits, rfl⟩

/--
The calls in a well-formed body are of designators that stand for something, with arguments that
suit them.
-/
theorem BodyWellFormed.call {result : DataType} {body : Body} (h : BodyWellFormed c result body) :
    ∀ call ∈ bodyCalls body,
      ∃ d types,
        call.target.value? c = some d ∧
        argumentTypes? c call.arguments = some types ∧
        suits c d.parameters types = true := by
  intro call hcall
  obtain hcall | hcall := List.mem_append.1 hcall
  · obtain ⟨statement, hstatement, hcall⟩ := List.mem_flatMap.1 hcall
    have hformed := BodyWellFormed.statement body h statement hstatement
    cases statement with
    | call target arguments =>
      obtain rfl := List.mem_singleton.1 hcall
      exact hformed
    | bareCall target =>
      obtain rfl := List.mem_singleton.1 hcall
      obtain ⟨d, hvalue, hsuits⟩ := hformed
      exact ⟨d, [], hvalue, rfl, hsuits⟩
    | _ => cases hcall
  · obtain ⟨factor, hfactor, hcall⟩ := List.mem_flatMap.1 hcall
    obtain ⟨type, htype⟩ := h.typed factor hfactor
    cases factor with
    | call target arguments =>
      obtain rfl := List.mem_singleton.1 hcall
      obtain ⟨d, types, hvalue, htypes, hsuits, -⟩ := (Factor.type?_call_eq_some_iff ..).1 htype
      exact ⟨d, types, hvalue, htypes, hsuits⟩
    | _ => cases hcall

end Grammar

open Compilation Grammar in
/--
In a compiled module every call is one of `Designator.Called`, with the type that it has as a
factor: of a procedure of the module, with arguments that suit its parameters, or of anything else
that has a name.  And in every state of a compilation a designator that is no procedure of the
module is accepted as the callee of a call, whatever its type and the types of the arguments are: as
a statement with arguments or alone, and as a factor, whose type is unknown.
-/
theorem callees_of_calls (name source header : String) (limits : Limits) :
    (∀ units, compile name source header limits = .ok units →
      ∃ m : Grammar.Module,
        m.SpelledBy source ∧
        units = ⟨m.implementation header, m.interface⟩ ∧
        m.Checked ∧
        ∀ b ∈ m.blocks, ∃ bindings returns,
          m.Has b bindings returns ∧
          ∀ call ∈ bodyCalls b.body, ∃ types type,
            argumentTypes? b.around call.arguments = some types ∧
            (Factor.call call.target call.arguments).type? b.around = some type ∧
            call.target.Called m bindings b.around types type) ∧
    ∀ (depth : Nat) (s t : State) (target : Grammar.Designator) (arguments : List Expression)
      (d : Compilation.Designator) (types : List DataType),
      s.remaining < depth →
      target.value? s.context = some d →
      d.parameters = none →
      argumentTypes? s.context arguments = some types →
      d.callType = .unknown ∧
      (s.Translates (Statement.call target arguments).spelling
          ((Statement.call target arguments).text s.context) t →
        statement.Gives depth s () t) ∧
      (s.Translates (Statement.bareCall target).spelling
          ((Statement.bareCall target).text s.context) t →
        (Statement.bareCall target).StopsBefore t.token.kind →
        statement.Gives depth s () t) ∧
      (s.Translates (Factor.call target arguments).spelling
          ((Factor.call target arguments).text s.context) t →
        factor.Gives depth s d.callType t) := by
  constructor
  · intro units h
    obtain ⟨m, -, -, hspelled, -, -, hunits, -, hchecked⟩ := exists_checked_compiled h
    refine ⟨m, hspelled, hunits, hchecked, fun b hb => ?_⟩
    obtain ⟨bindings, returns, hplace⟩ := Module.exists_has hb
    refine ⟨bindings, returns, hplace, fun call hcall => ?_⟩
    obtain ⟨hholds, result, -, hbody⟩ := hchecked.holds hplace
    obtain ⟨d, types, hvalue, htypes, hsuits⟩ := hbody.call call hcall
    have htype := (Factor.type?_call_eq_some_iff b.around call.target call.arguments d.callType).2
      ⟨d, types, hvalue, htypes, hsuits, rfl⟩
    exact ⟨types, d.callType, htypes, htype, hholds.called hvalue hsuits⟩
  · intro depth s t target arguments d types hs hvalue hnone htypes
    have hsuits (types : List DataType) : suits s.context d.parameters types = true := by
      rw [hnone]
      rfl
    refine ⟨Designator.callType_of_value? hvalue hnone, fun hwords => ?_, fun hwords hstops => ?_,
      fun hwords => ?_⟩
    · refine (recognizes_statements depth s hs () t).2 ⟨.call target arguments, ?_, trivial, hwords⟩
      exact ⟨d, types, hvalue, htypes, hsuits types⟩
    · refine (recognizes_statements depth s hs () t).2 ⟨.bareCall target, ?_, hstops, hwords⟩
      exact ⟨d, hvalue, hsuits []⟩
    · refine (recognizes_factor depth s hs d.callType t).2 ⟨.call target arguments, ?_, trivial,
        hwords⟩
      exact (Factor.type?_call_eq_some_iff ..).2 ⟨d, types, hvalue, htypes, hsuits types, rfl⟩

open Compilation Grammar in
/-- A variable of a number type is called with an argument, as a statement and as a factor. -/
theorem callees_of_calls_integer :
    ∃ (s t : State) (d : Compilation.Designator),
      State.behindAction? variableDeclaration "x:INTEGER;x(1)" = some s ∧
      (Designator.plain "x").value? s.context = some d ∧
      d.type = .integer ∧
      s.behind? (Factor.call (.plain "x") [.integer "1"]).spelling = some t ∧
      statement.Gives (s.remaining + 1) s ()
        (t.write ((Statement.call (.plain "x") [.integer "1"]).text s.context)) ∧
      factor.Gives (s.remaining + 1) s .unknown
        (t.write ((Factor.call (.plain "x") [.integer "1"]).text s.context)) := by
  have hchecked : (State.behindAction? variableDeclaration "x:INTEGER;x(1)").any (fun s =>
      ((Designator.plain "x").value? s.context).any fun d =>
        (s.behind? (Factor.call (.plain "x") [.integer "1"]).spelling).isSome &&
          decide (d.type = .integer ∧ d.parameters = none ∧
            argumentTypes? s.context [.integer "1"] = some [.integer])) = true := by
    decide +kernel
  obtain ⟨s, hs, hchecked⟩ := (Option.any_eq_true _ _).1 hchecked
  obtain ⟨d, hvalue, hchecked⟩ := (Option.any_eq_true _ _).1 hchecked
  obtain ⟨hwords, hchecked⟩ := Bool.and_eq_true_iff.1 hchecked
  obtain ⟨t, ht⟩ := Option.isSome_iff_exists.1 hwords
  obtain ⟨htype, hnone, htypes⟩ := of_decide_eq_true hchecked
  have hcalls (u : State) := (callees_of_calls "M.Mod" "" "M.h" {}).2 (s.remaining + 1) s u
    (.plain "x") [.integer "1"] d _ (Nat.lt_succ_self _) hvalue hnone htypes
  refine ⟨s, t, d, hs, hvalue, htype, ht, (hcalls _).2.1 (State.translates_of_behind? ht _), ?_⟩
  rw [← (hcalls t).1]
  exact (hcalls _).2.2.2 (State.translates_of_behind? ht _)

/-- A variable of a number type is called. -/
theorem call_of_integer :
    (compile "M.Mod" "MODULE M;VAR x:INTEGER;BEGIN x END M." "M.h" {}).toOption.map
      Units.implementation =
      some ("#include \"M.h\"\n\nstatic int M_x;\n" ++ Target.initializerHead "M" ++
        "M_x();\n\x7d\n") := by
  decide +kernel

end Oberon
