import Oberon.Proofs.Calls

/-!
# Results

What procedures return and what calls of them are worth.  A procedure without a result and the
module itself return as if their result were of unknown type, and a call of a procedure without a
result is a value of unknown type.  An unknown type goes with every type.

**Returns.**  Where a type is declared, every value that is returned is compatible with it
(`BodyWellFormed.returned`); elsewhere any value may be returned.

**Main statement.**  `results_of_calls`.
-/

namespace Oberon

theorem TypeCatalog.compatible_unknown (c : TypeCatalog) (type : DataType) :
    c.compatible .unknown type = true ∧ c.compatible type .unknown = true := by
  simp [compatible]

namespace Grammar

/-- A value that is returned has a type, which is compatible with the declared one. -/
theorem BodyWellFormed.returned
    {c : Context}
    {result : DataType}
    {returns : Option TypeExpression}
    {body : Body}
    {value : Expression}
    (h : BodyWellFormed c result body)
    (hresult : Heading.ResultHas c.types returns result)
    (hvalue : .result (some value) ∈ bodyStatements body) :
    ∃ type,
      value.type? c = some type ∧
      ∀ declared ∈ returns, ∃ result,
        declared.Denotes c.types result ∧ c.types.compatible result type = true := by
  obtain ⟨type, htype, hcompatible⟩ := BodyWellFormed.statement body h _ hvalue
  refine ⟨type, htype, fun declared hdeclared => ⟨result, ?_, hcompatible⟩⟩
  rw [Option.mem_def] at hdeclared
  rw [hdeclared] at hresult
  exact hresult

end Grammar

open Compilation Grammar in
/--
In a compiled module, a value is returned where a type is declared only if it is compatible with
that type, and a call in an expression has the type of `Designator.Called`: the declared one of the
procedure, and an unknown one if the procedure has no result.  In every state of a compilation in
which the result is of unknown type any value is returned, and an unknown type passes every check
against another type.
-/
theorem results_of_calls (name source header : String) (limits : Limits) :
    (∀ units, compile name source header limits = .ok units →
      ∃ m : Grammar.Module,
        m.SpelledBy source ∧
        units = ⟨m.implementation header, m.interface⟩ ∧
        m.Checked ∧
        ∀ b ∈ m.blocks, ∃ bindings returns,
          m.Has b bindings returns ∧
          (∀ value, .result (some value) ∈ bodyStatements b.body →
            ∃ type,
              value.type? b.around = some type ∧
              ∀ declared ∈ returns, ∃ result,
                declared.Denotes b.around.types result ∧
                b.around.types.compatible result type = true) ∧
          ∀ target arguments, .call target arguments ∈ bodyFactors b.body →
            ∃ types type,
              argumentTypes? b.around arguments = some types ∧
              (Factor.call target arguments).type? b.around = some type ∧
              target.Called m bindings b.around types type) ∧
    (∀ (depth : Nat) (s t : State) (value : Expression) (type : DataType),
      s.remaining < depth →
      s.scope.result = .unknown →
      value.type? s.context = some type →
      s.Translates (Statement.result (some value)).spelling
        ((Statement.result (some value)).text s.context) t →
      value.StopsBefore t.token.kind →
      statement.Gives depth s () t) ∧
    ∀ (depth : Nat) (s : State) (type : DataType),
      (Action.requireCompatible .unknown type).Gives depth s () s ∧
      (Action.requireCompatible type .unknown).Gives depth s () s := by
  refine ⟨?_, ?_, fun depth s type => ?_⟩
  · intro units h
    obtain ⟨m, -, -, hspelled, -, -, hunits, -, hchecked⟩ := exists_checked_compiled h
    refine ⟨m, hspelled, hunits, hchecked, fun b hb => ?_⟩
    obtain ⟨bindings, returns, hplace⟩ := Module.exists_has hb
    obtain ⟨hholds, result, hresult, hbody⟩ := hchecked.holds hplace
    refine ⟨bindings, returns, hplace, fun value hvalue => hbody.returned hresult hvalue, ?_⟩
    intro target arguments hcall
    obtain ⟨type, htype⟩ := hbody.typed _ hcall
    obtain ⟨d, types, hvalue, htypes, hsuits, rfl⟩ := (Factor.type?_call_eq_some_iff ..).1 htype
    exact ⟨types, d.callType, htypes, htype, hholds.called hvalue hsuits⟩
  · intro depth s t value type hs hresult htype hwords hstops
    refine (recognizes_statements depth s hs () t).2
      ⟨.result (some value), ⟨type, htype, ?_⟩, hstops, hwords⟩
    rw [hresult]
    exact (s.context.types.compatible_unknown type).1
  · obtain ⟨hleft, hright⟩ := s.types.compatible_unknown type
    exact ⟨(Action.gives_requireCompatible ..).2 ⟨hleft, rfl⟩,
      (Action.gives_requireCompatible ..).2 ⟨hright, rfl⟩⟩

open Compilation Grammar in
/-- An integer is returned where no procedure is open. -/
theorem results_of_calls_integer :
    ∃ s t : State,
      State.start "RETURN 1" {} = .ok s ∧
      s.scope.result = .unknown ∧
      s.behind? (Statement.result (some (.integer "1"))).spelling = some t ∧
      statement.Gives (s.remaining + 1) s ()
        (t.write ((Statement.result (some (.integer "1"))).text s.context)) := by
  have hchecked : (State.start "RETURN 1" {}).toOption.any (fun s =>
      (s.behind? (Statement.result (some (.integer "1"))).spelling).any fun t =>
        decide (s.scope.result = .unknown ∧ t.token.kind = .eof ∧
          (Expression.integer "1").type? s.context = some .integer)) = true := by
    decide +kernel
  obtain ⟨s, hs, hchecked⟩ := State.exists_start_of_any hchecked
  obtain ⟨t, ht, hchecked⟩ := (Option.any_eq_true _ _).1 hchecked
  obtain ⟨hresult, hend, htype⟩ := of_decide_eq_true hchecked
  refine ⟨s, t, hs, hresult, ht, ?_⟩
  refine (results_of_calls "M.Mod" "" "M.h" {}).2.1 (s.remaining + 1) s _ (.integer "1") .integer
    (Nat.lt_succ_self _) hresult htype (State.translates_of_behind? ht _) ?_
  rw [State.write_token, hend]
  exact ⟨rfl, rfl, rfl, trivial⟩

/-- The module itself returns a value, and it is that of a procedure without a result. -/
theorem return_of_no_result :
    (compile "M.Mod" "MODULE M;PROCEDURE P;END P;BEGIN RETURN P() END M." "M.h" {}).toOption.map
        Units.implementation =
      some ("#include \"M.h\"\n\n\nstatic void M_P(void) \x7b\n\x7d\n" ++
        Target.initializerHead "M" ++ "return ((M_P()));\n\x7d\n") := by
  decide +kernel

end Oberon
