import Oberon.Proofs.Translation.Structured

/-!
# The translation of statements

The statements of one word, the assignments and the calls, and with them all statements
(`recognizes_statements`, by induction on how many rules may stand inside each other).

**Designators.**  A designator in front of a statement is read into a capture, since only the token
behind it tells whether it is assigned to, called with arguments or called without.

**Main result.**  `statements_run_eq_ok_iff` says which tokens are read as a body and what the two
units and the tables hold behind it.
-/

namespace Oberon
namespace Compilation

open Oberon.Grammar
open Oberon.Compilation.Action

variable {depth : Nat} {s t : State}

/-! ### Simple statements -/

theorem gives_returnStatement_iff
    (hs : s.remaining ≤ depth) (hkind : s.token.kind = .keyword .RETURN) (a : Unit) :
    returnStatement.Gives depth s a t ↔ ∃ value, Spans (.result value) s t := by
  simp only [returnStatement, gives_bind, gives_take_keyword_iff hkind, gives_kind, gives_ite,
    gives_write_iff, gives_scope, gives_requireCompatible]
  constructor
  · rintro ⟨_, u, hword, _, u, ⟨rfl, rfl⟩,
      ⟨hnext, hwrite⟩ | ⟨-, _, v, hwrite, type, w, hvalue, _, w, ⟨rfl, rfl⟩, _, w,
      ⟨hfits, rfl⟩, hclose⟩⟩
    · refine ⟨none, trivial, ?_,
        by simpa [Statement.spelling, Statement.text] using hword.trans hwrite⟩
      rw [hwrite.token_eq]
      simpa [Statement.StopsBefore] using hnext
    · have hall := hword.trans hwrite
      have hv : v.remaining < depth := Nat.lt_of_lt_of_le (hall.remaining_lt (by decide)) hs
      rw [gives_expression_iff (recognizes_expressions depth) hv, hall.context_eq] at hvalue
      obtain ⟨value, htype, hstops, htranslates⟩ := hvalue
      have hvalue := hall.trans htranslates
      rw [show w.types = s.context.types from hvalue.types_eq, hvalue.scope_eq] at hfits
      refine ⟨some value, ⟨type, htype, hfits⟩, ?_, ?_⟩
      · rw [hclose.token_eq]
        exact hstops
      · simpa [Statement.spelling, Statement.text, String.append_assoc] using hvalue.trans hclose
  · rintro ⟨value, hfound, hstops, htranslates⟩
    cases value with
    | none =>
      obtain ⟨u, hword, _, hwrite, rfl⟩ := htranslates.cut
        [([.keyword .RETURN], ""), ([], "return;\n")]
        (by simp [Statement.spelling]) (by simp [Statement.text])
      refine ⟨(), u, hword, _, u, ⟨rfl, rfl⟩, Or.inl ⟨?_, hwrite⟩⟩
      rw [hwrite.token_eq] at hstops
      simpa [Statement.StopsBefore] using hstops
    | some value =>
      rw [Statement.WellFormed] at hfound
      obtain ⟨type, htype, hfits⟩ := hfound
      obtain ⟨u, hword, v, hwrite, w, hvalue, _, hclose, rfl⟩ := htranslates.cut
        [([.keyword .RETURN], ""), ([], "return "), (value.spelling, value.text s.context),
          ([], ";\n")]
        (by simp [Statement.spelling]) (by simp [Statement.text, String.append_assoc])
      have hall := hword.trans hwrite
      have hv : v.remaining < depth := Nat.lt_of_lt_of_le (hall.remaining_lt (by decide)) hs
      have hgives : expression.Gives depth v type w := by
        rw [gives_expression_iff (recognizes_expressions depth) hv, hall.context_eq]
        refine ⟨value, htype, ?_, hvalue⟩
        rw [← hclose.token_eq]
        exact hstops
      have hbefore := hall.trans hvalue
      rw [← hbefore.context_eq, ← hbefore.scope_eq] at hfits
      refine ⟨(), u, hword, _, u, ⟨rfl, rfl⟩,
        Or.inr ⟨?_, (), v, hwrite, type, w, hgives, _, w, ⟨rfl, rfl⟩, (), w,
        ⟨hfits, rfl⟩, hclose⟩⟩
      obtain ⟨word, words, hspelling, hopens⟩ := value.spelling_eq_cons
      rw [hspelling] at hvalue
      rw [← hvalue.token_kind, hwrite.token_eq] at hopens
      obtain ⟨hends, hsemicolon⟩ := goesOn_of_opensExpression hopens
      simp [hends, hsemicolon]

theorem gives_assertStatement_iff
    (hs : s.remaining ≤ depth) (hkind : s.token.kind = .keyword .ASSERT) (a : Unit) :
    assertStatement.Gives depth s a t ↔ ∃ e, Spans (.assertion e) s t := by
  simp only [assertStatement, gives_bind, gives_take_keyword_iff hkind, gives_expect_sign_iff,
    gives_write_iff]
  have hpast : ∀ u v w : State, s.Translates [.keyword .ASSERT] "" u →
        u.Translates [.sign .openParen] "" v →
      v.Translates [] "if (!(" w → w.remaining < depth := by
    intro u v w hword hopen hwrite
    exact Nat.lt_of_lt_of_le (((hword.trans hopen).trans hwrite).remaining_lt (by decide)) hs
  constructor
  · rintro ⟨_, u, hword, _, v, hopen, _, w, hwrite, _, x, hcondition, _, y, hclose, hwrite'⟩
    have hall := (hword.trans hopen).trans hwrite
    obtain ⟨e, hcondition, htranslates⟩ :=
      (gives_condition_before_iff (hpast u v w hword hopen hwrite) (.sign .closeParen)
        (by decide) [] ")) abort();\n").1 ⟨x, hcondition, hclose.trans hwrite'⟩
    rw [hall.context_eq] at hcondition htranslates
    refine ⟨e, hcondition, trivial, ?_⟩
    simpa [Statement.spelling, Statement.text, String.append_assoc] using hall.trans htranslates
  · rintro ⟨e, hcondition, -, htranslates⟩
    rw [Statement.WellFormed] at hcondition
    obtain ⟨u, hword, v, hopen, w, hwrite, _, hbehind, rfl⟩ := htranslates.cut
      [([.keyword .ASSERT], ""), ([.sign .openParen], ""), ([], "if (!("),
        (e.spelling ++ [.sign .closeParen], e.text s.context ++ ")) abort();\n")]
      (by simp [Statement.spelling]) (by simp [Statement.text, String.append_assoc])
    have hall := (hword.trans hopen).trans hwrite
    rw [← hall.context_eq] at hcondition hbehind
    obtain ⟨x, hcondition, hbehind⟩ :=
      (gives_condition_before_iff (hpast u v w hword hopen hwrite) (.sign .closeParen)
        (by decide) [] ")) abort();\n").2 ⟨e, hcondition, hbehind⟩
    obtain ⟨y, hclose, _, hwrite', rfl⟩ := hbehind.cut
      [([.sign .closeParen], ""), ([], ")) abort();\n")] rfl rfl
    exact ⟨(), u, hword, (), v, hopen, (), w, hwrite, (), x, hcondition, (), y, hclose, hwrite'⟩

theorem gives_wordStatement_iff
    (jump : Jump) (hkind : s.token.kind = .keyword jump.keyword) (a : Unit) :
    (wordStatement jump.text).Gives depth s a t ↔ Spans (.jump jump) s t := by
  simp only [wordStatement, gives_bind, gives_take_keyword_iff hkind, gives_write_iff]
  constructor
  · rintro ⟨_, u, hword, hwrite⟩
    exact ⟨trivial, trivial, by simpa [Statement.spelling, Statement.text] using hword.trans hwrite⟩
  · rintro ⟨-, -, htranslates⟩
    obtain ⟨u, hword, _, hwrite, rfl⟩ := htranslates.cut
      [([.keyword jump.keyword], ""), ([], jump.text)]
      (by simp [Statement.spelling]) (by simp [Statement.text])
    exact ⟨(), u, hword, hwrite⟩

/-- What is read behind a variable that is counted. -/
def behindCounted (counter : Counter) (d : Designator) : Action Unit := do
  if ← accept (.sign .comma) then
    write counter.byStep
    let step ← expression
    requireCompatible d.type step
  else write counter.byOne
  expect (.sign .closeParen)
  write ";\n"

theorem countStatement_eq (counter : Counter) :
    countStatement counter.byOne counter.byStep = (do
      take
      expect (.sign .openParen)
      let d ← designator
      unless d.assignable do reject (.notAssignable d.name)
      behindCounted counter d) := rfl

/-- The step of a count, if there is one, fits the variable that is counted. -/
theorem gives_behindCounted_iff
    (hs : s.remaining < depth)
    (counter : Counter)
    (d : Designator)
    (a : Unit) :
    (behindCounted counter d).Gives depth s a t ↔
      ∃ step : Option Expression,
        (∀ e ∈ step,
          ∃ type, e.type? s.context = some type ∧ s.context.types.compatible d.type type = true) ∧
        s.Translates (stepSpelling step ++ [.sign .closeParen])
          (counter.text s.context step ++ ";\n") t := by
  rw [behindCounted, gives_if_accept_sign_iff]
  simp only [gives_bind, gives_write_iff, gives_requireCompatible, gives_expect_sign_iff]
  constructor
  · rintro (⟨u, hcomma, _, v, hwrite, type, w, hstep, _, w, ⟨hfits, rfl⟩, _, x, hclose, hwrite'⟩ |
      ⟨-, _, u, hwrite, _, v, hclose, hwrite'⟩)
    · have hbefore := hcomma.trans hwrite
      have hv : v.remaining < depth := Nat.lt_of_le_of_lt hbefore.remaining_le hs
      have hcontext : w.context = s.context :=
        (context_eq_of_expression (recognizes_expressions depth) hv hstep).trans hbefore.context_eq
      obtain ⟨step, htype, htranslates⟩ :=
        (gives_expression_before_iff (recognizes_expressions depth) hv (.sign .closeParen)
          (by decide) []
          ";\n" type).1 ⟨w, hstep, hclose.trans hwrite'⟩
      rw [hbefore.context_eq] at htype htranslates
      rw [show w.types = s.context.types from congrArg Context.types hcontext] at hfits
      refine ⟨some step, ?_, ?_⟩
      · rintro e ⟨⟩
        exact ⟨type, htype, hfits⟩
      · simpa [stepSpelling, Counter.text, String.append_assoc] using hbefore.trans htranslates
    · refine ⟨none, by simp, ?_⟩
      simpa [stepSpelling, Counter.text, String.append_assoc]
        using hwrite.trans (hclose.trans hwrite')
  · rintro ⟨step, hstep, htranslates⟩
    cases step with
    | none =>
      obtain ⟨u, hwrite, v, hclose, _, hwrite', rfl⟩ := htranslates.cut
        [([], counter.byOne), ([.sign .closeParen], ""), ([], ";\n")]
        (by simp [stepSpelling]) (by simp [Counter.text])
      refine Or.inr ⟨?_, (), u, hwrite, (), v, hclose, hwrite'⟩
      rw [← hwrite.token_eq, hclose.token_kind]
      decide
    | some step =>
      obtain ⟨type, htype, hfits⟩ := hstep step rfl
      obtain ⟨u, hcomma, v, hwrite, _, hlast, rfl⟩ := htranslates.cut
        [([.sign .comma], ""), ([], counter.byStep),
          (step.spelling ++ [.sign .closeParen], step.text s.context ++ ";\n")]
        (by simp [stepSpelling]) (by simp [Counter.text, String.append_assoc])
      have hbefore := hcomma.trans hwrite
      have hv : v.remaining < depth := Nat.lt_of_le_of_lt hbefore.remaining_le hs
      rw [← hbefore.context_eq] at htype hlast hfits
      obtain ⟨w, hgives, hclose⟩ :=
        (gives_expression_before_iff (recognizes_expressions depth) hv (.sign .closeParen)
          (by decide) []
          ";\n" type).2 ⟨step, htype, hlast⟩
      rw [← context_eq_of_expression (recognizes_expressions depth) hv hgives] at hfits
      obtain ⟨x, hclose, _, hwrite', rfl⟩ :=
        hclose.cut [([.sign .closeParen], ""), ([], ";\n")] rfl rfl
      exact Or.inl ⟨u, hcomma, (), v, hwrite, type, w, hgives, (), w, ⟨hfits, rfl⟩, (), x, hclose,
        hwrite'⟩

/-- No index stands behind a variable that is counted. -/
theorem State.Translates.ne_openBracket_of_step
    {step : Option Expression}
    {text : String}
    (h : s.Translates (stepSpelling step ++ [.sign .closeParen]) text t) :
    s.token.kind ≠ .sign .openBracket := by
  cases step with
  | none =>
    rw [stepSpelling, List.nil_append] at h
    rw [h.token_kind]
    decide
  | some step =>
    rw [stepSpelling, List.cons_append] at h
    rw [h.token_kind]
    decide

theorem gives_countStatement_iff
    (hs : s.remaining ≤ depth)
    (counter : Counter)
    (hkind : s.token.kind = .keyword counter.keyword)
    (a : Unit) :
    (countStatement counter.byOne counter.byStep).Gives depth s a t ↔
      ∃ target step, Spans (.count counter target step) s t := by
  simp only [countStatement_eq, gives_bind, gives_take_keyword_iff hkind, gives_expect_sign_iff,
    gives_ite, gives_reject, false_and, exists_false, and_false, or_false]
  have hpast : ∀ u v : State, s.Translates [.keyword counter.keyword] "" u →
      u.Translates [.sign .openParen] "" v → v.remaining < depth := by
    intro u v hword hopen
    exact Nat.lt_of_lt_of_le ((hword.trans hopen).remaining_lt (by simp [Word.keyword])) hs
  constructor
  · rintro ⟨_, u, hword, _, v, hopen, d, w, hdesignator, hassignable, h⟩
    have hall := hword.trans hopen
    have hv := hpast u v hword hopen
    rw [gives_designator_iff (recognizes_expressions depth) (Nat.le_of_lt hv), hall.context_eq]
      at hdesignator
    obtain ⟨target, hvalue, -, htarget⟩ := hdesignator
    have hbefore := hall.trans htarget
    have hw : w.remaining < depth := Nat.lt_of_le_of_lt htarget.remaining_le hv
    rw [gives_behindCounted_iff hw, hbefore.context_eq] at h
    obtain ⟨step, hstep, hbehind⟩ := h
    refine ⟨target, step, ⟨d, hvalue, hassignable, hstep⟩, trivial, ?_⟩
    simpa [Statement.spelling, Statement.text, String.append_assoc] using hbefore.trans hbehind
  · rintro ⟨target, step, hfound, -, htranslates⟩
    rw [Statement.WellFormed] at hfound
    obtain ⟨d, hvalue, hassignable, hstep⟩ := hfound
    obtain ⟨u, hword, v, hopen, w, htarget, _, hbehind, rfl⟩ := htranslates.cut
      [([.keyword counter.keyword], ""), ([.sign .openParen], ""),
        (target.spelling, target.text s.context),
        (stepSpelling step ++ [.sign .closeParen], counter.text s.context step ++ ";\n")]
      (by simp [Statement.spelling]) (by simp [Statement.text, String.append_assoc])
    have hall := hword.trans hopen
    have hv := hpast u v hword hopen
    have hw : w.remaining < depth := Nat.lt_of_le_of_lt htarget.remaining_le hv
    refine ⟨(), u, hword, (), v, hopen, d, w, ?_, hassignable, ?_⟩
    · rw [gives_designator_iff (recognizes_expressions depth) (Nat.le_of_lt hv), hall.context_eq]
      exact ⟨target, hvalue, hbehind.ne_openBracket_of_step, htarget⟩
    · rw [gives_behindCounted_iff hw, (hall.trans htarget).context_eq]
      exact ⟨step, hstep, hbehind⟩

/-! ### Assignments and calls -/

/-- A target is read into a capture: its text is handed on. -/
theorem gives_target_iff (hs : s.remaining ≤ depth) (found : Designator × String) :
    (textOf designator).Gives depth s found t ↔
      ∃ target : Grammar.Designator,
        (target.value? s.context = some found.1 ∧ t.token.kind ≠ .sign .openBracket) ∧
        found.2 = target.text s.context ∧
        s.Translates target.spelling "" t := by
  refine gives_textOf_iff Designator.spelling (Designator.text s.context)
    (fun d target kind => target.value? s.context = some d ∧ kind ≠ .sign .openBracket) ?_ found
  intro d u
  refine (gives_designator_iff (recognizes_expressions depth)
    (s := { s with output := s.output.openCapture }) hs d).trans ?_
  simp only [and_assoc]
  rfl

/-- The right side of an assignment: a string literal is copied, any other value is assigned. -/
theorem gives_assignment_iff
    (hs : s.remaining < depth)
    (d : Designator)
    (target : String)
    (a : Unit) :
    (assignment d target).Gives depth s a t ↔
      d.assignable = true ∧
      ((∃ literal,
        (d.type = .unknown ∨ s.context.types.form d.type = .array) ∧
        s.Translates [(.stringLiteral, literal)]
          ("strcpy(" ++ target ++ ", " ++ literal ++ ")") t) ∨
        ∃ (value : Expression) (type : DataType),
          value.type? s.context = some type ∧
          s.context.types.compatible d.type type = true ∧
          ¬ value.OpensWithString ∧
          value.StopsBefore t.token.kind ∧
          s.Translates value.spelling (target ++ " = " ++ value.text s.context) t) := by
  simp only [assignment, gives_bind, gives_ite, gives_reject, gives_sees, gives_form, gives_lexeme,
    gives_write_iff, gives_requireCompatible, false_and, exists_false, and_false, or_false,
    false_or]
  refine and_congr_right fun _ => ?_
  constructor
  · rintro ⟨_, s, ⟨rfl, rfl⟩, h⟩
    obtain ⟨hkind, _, s, ⟨rfl, rfl⟩, hform, _, u, ⟨rfl, htake⟩, hwrite⟩ |
      ⟨hkind, _, u, hwrite, type, v, hvalue, hfits, rfl⟩ := h
    · refine Or.inl ⟨s.token.lexeme, ?_, ?_⟩
      · by_contra hother
        rw [not_or] at hother
        exact hform hother
      · have htaken : s.Translates [(.stringLiteral, s.token.lexeme)] "" u := by
          rw [State.translates_take_iff, s.token.word_eq_iff_of_open rfl]
          exact ⟨⟨by simpa using hkind, rfl⟩, htake⟩
        simpa using htaken.trans hwrite
    · have hu : u.remaining < depth := Nat.lt_of_le_of_lt hwrite.remaining_le hs
      rw [gives_expression_iff (recognizes_expressions depth) hu, hwrite.context_eq] at hvalue
      obtain ⟨value, htype, hstops, htranslates⟩ := hvalue
      have hall := hwrite.trans htranslates
      rw [show t.types = s.context.types from hall.types_eq] at hfits
      refine Or.inr ⟨value, type, htype, hfits, ?_, hstops, by simpa using hall⟩
      rintro ⟨literal, words, hspelling⟩
      rw [hspelling] at htranslates
      refine hkind (decide_eq_true ?_)
      rw [← hwrite.token_eq]
      exact htranslates.token_kind
  · rintro (⟨literal, hform, htranslates⟩ | ⟨value, type, htype, hfits, hopens, hstops,
      htranslates⟩)
    · obtain ⟨u, htaken, _, hwrite, rfl⟩ := htranslates.cut
        [([(.stringLiteral, literal)], ""), ([], "strcpy(" ++ target ++ ", " ++ literal ++ ")")] rfl
          (by simp)
      rw [State.translates_take_iff, s.token.word_eq_iff_of_open rfl] at htaken
      obtain ⟨⟨hkind, rfl⟩, htake⟩ := htaken
      refine ⟨_, s, ⟨rfl, rfl⟩, Or.inl ⟨decide_eq_true hkind, _, s, ⟨rfl, rfl⟩, ?_, _, u,
        ⟨rfl, htake⟩, hwrite⟩⟩
      rintro ⟨htype, harray⟩
      exact hform.elim htype harray
    · obtain ⟨u, hwrite, _, hvalue, rfl⟩ := htranslates.cut
        [([], target ++ " = "), (value.spelling, value.text s.context)] (by simp) (by simp)
      have hu : u.remaining < depth := Nat.lt_of_le_of_lt hwrite.remaining_le hs
      have hgives : expression.Gives depth u type t := by
        rw [gives_expression_iff (recognizes_expressions depth) hu, hwrite.context_eq]
        exact ⟨value, htype, hstops, hvalue⟩
      rw [← htranslates.context_eq] at hfits
      refine ⟨_, s, ⟨rfl, rfl⟩, Or.inr ⟨?_, (), u, hwrite, type, t, hgives, hfits, rfl⟩⟩
      intro hseen
      obtain ⟨word, words, hspelling, -⟩ := value.spelling_eq_cons
      rw [hspelling] at hvalue
      refine hopens ⟨word.2, words, ?_⟩
      have hkind : word.1 = .stringLiteral := by
        rw [← hvalue.token_kind, hwrite.token_eq]
        exact of_decide_eq_true hseen
      rw [hspelling, ← hkind]

/-- What is read behind a designator that begins a statement. -/
def behindTarget (d : Designator) (target : String) : Action Unit := do
  if ← accept (.sign .assign) then assignment d target
  else if ← sees (.sign .openParen) then
    write target
    arguments d
  else
    matchArguments d []
    write (target ++ "()")
  write ";\n"

theorem gives_behindTarget_iff
    (d : Designator) (target : String) (a : Unit) :
    (behindTarget d target).Gives depth s a t ↔
      (∃ u v,
        s.Translates [.sign .assign] "" u ∧
        (assignment d target).Gives depth u () v ∧
        v.Translates [] ";\n" t) ∨
      (s.token.kind = .sign .openParen ∧
        ∃ u v,
          s.Translates [] target u ∧ (arguments d).Gives depth u () v ∧ v.Translates [] ";\n" t) ∨
      (s.token.kind ≠ .sign .assign ∧
        s.token.kind ≠ .sign .openParen ∧
        suits s.context d.parameters [] = true ∧
        s.Translates [] (target ++ "();\n") t) := by
  rw [behindTarget, gives_if_accept_sign_iff]
  simp only [gives_bind, gives_ite, gives_sees, gives_write_iff, gives_matchArguments_iff]
  constructor
  · rintro (⟨u, hassign, _, v, hright, hclose⟩ | ⟨hassign, _, s, ⟨rfl, rfl⟩, h⟩)
    · exact Or.inl ⟨u, v, hassign, hright, hclose⟩
    · obtain ⟨hparen, _, u, hwrite, _, v, harguments, hclose⟩ | ⟨hparen, _, s, ⟨hsuits, rfl⟩, _, u,
          hwrite, hclose⟩ :=
        h
      · exact Or.inr (Or.inl ⟨of_decide_eq_true hparen, u, v, hwrite, harguments, hclose⟩)
      · refine Or.inr (Or.inr ⟨hassign, by simpa using hparen, hsuits, ?_⟩)
        simpa [String.append_assoc] using hwrite.trans hclose
  · rintro (⟨u, v, hassign, hright, hclose⟩ | ⟨hparen, u, v, hwrite, harguments, hclose⟩ |
      ⟨hassign, hparen, hsuits, htranslates⟩)
    · exact Or.inl ⟨u, hassign, (), v, hright, hclose⟩
    · refine Or.inr ⟨by simp [hparen], _, s, ⟨rfl, rfl⟩, ?_⟩
      exact Or.inl ⟨decide_eq_true hparen, (), u, hwrite, (), v, harguments, hclose⟩
    · obtain ⟨u, hwrite, _, hclose, rfl⟩ := htranslates.cut
        [([], target ++ "()"), ([], ";\n")] rfl (by simp [String.append_assoc])
      refine Or.inr ⟨hassign, _, s, ⟨rfl, rfl⟩, ?_⟩
      exact Or.inr ⟨by simpa using hparen, (), s, ⟨hsuits, rfl⟩, (), u, hwrite, hclose⟩

theorem designatorStatement_eq :
    designatorStatement = (do
      let (d, target) ← textOf designator
      behindTarget d target) := rfl

theorem State.Translates.remaining_lt_of_designator
    {target : Grammar.Designator} {text : String} (h : s.Translates target.spelling text t) :
    t.remaining < s.remaining := by
  obtain ⟨name, words, hspelling⟩ := target.spelling_eq_cons
  rw [hspelling] at h
  exact h.remaining_lt (by simp [Word.identifier])

section Target

variable (hs : s.remaining ≤ depth) (target : Grammar.Designator)
include hs

/-- A target in front of `:=` is assigned a value or a literal is copied to it. -/
theorem exists_assigned_iff :
    (∃ d u v w,
      target.value? s.context = some d ∧
      s.Translates target.spelling "" u ∧
      u.Translates [.sign .assign] "" v ∧
      (assignment d (target.text s.context)).Gives depth v () w ∧
      w.Translates [] ";\n" t) ↔
      (∃ value, Spans (.assignment target value) s t) ∨
      ∃ literal, Spans (.copy target literal) s t := by
  have hpast : ∀ u v : State, s.Translates target.spelling "" u →
        u.Translates [.sign .assign] "" v →
      v.remaining < depth := by
    intro u v htarget hassign
    exact Nat.lt_of_le_of_lt hassign.remaining_le
      (Nat.lt_of_lt_of_le htarget.remaining_lt_of_designator hs)
  constructor
  · rintro ⟨d, u, v, w, hvalue, htarget, hassign, hright, hclose⟩
    have hall := htarget.trans hassign
    rw [gives_assignment_iff (hpast u v htarget hassign), hall.context_eq] at hright
    obtain ⟨hassignable, ⟨literal, hform, hright⟩ | ⟨value, type, htype, hfits, hopens, hstops,
        hright⟩⟩ :=
      hright
    · refine Or.inr ⟨literal, ⟨d, hvalue, hassignable, hform⟩, trivial, ?_⟩
      simpa [Statement.spelling, Statement.text, String.append_assoc]
        using (hall.trans hright).trans hclose
    · refine Or.inl ⟨value, ⟨d, type, hvalue, hassignable, htype, hfits, hopens⟩, ?_, ?_⟩
      · rw [hclose.token_eq]
        exact hstops
      · simpa [Statement.spelling, Statement.text, String.append_assoc]
          using (hall.trans hright).trans hclose
  · rintro (⟨value, hfound, hstops, htranslates⟩ | ⟨literal, hfound, -, htranslates⟩)
    · rw [Statement.WellFormed] at hfound
      obtain ⟨d, type, hvalue, hassignable, htype, hfits, hopens⟩ := hfound
      obtain ⟨u, htarget, v, hassign, w, hright, _, hclose, rfl⟩ := htranslates.cut
        [(target.spelling, ""), ([.sign .assign], ""),
          (value.spelling, target.text s.context ++ " = " ++ value.text s.context), ([], ";\n")]
        (by simp [Statement.spelling]) (by simp [Statement.text, String.append_assoc])
      refine ⟨d, u, v, w, hvalue, htarget, hassign, ?_, hclose⟩
      rw [gives_assignment_iff (hpast u v htarget hassign), (htarget.trans hassign).context_eq]
      refine ⟨hassignable, Or.inr ⟨value, type, htype, hfits, hopens, ?_, hright⟩⟩
      rw [← hclose.token_eq]
      exact hstops
    · rw [Statement.WellFormed] at hfound
      obtain ⟨d, hvalue, hassignable, hform⟩ := hfound
      obtain ⟨u, htarget, v, hassign, w, hright, _, hclose, rfl⟩ := htranslates.cut
        [(target.spelling, ""), ([.sign .assign], ""),
          ([(.stringLiteral, literal)], "strcpy(" ++ target.text s.context ++ ", " ++ literal ++
            ")"), ([], ";\n")]
        (by simp [Statement.spelling]) (by simp [Statement.text, String.append_assoc])
      refine ⟨d, u, v, w, hvalue, htarget, hassign, ?_, hclose⟩
      rw [gives_assignment_iff (hpast u v htarget hassign), (htarget.trans hassign).context_eq]
      exact ⟨hassignable, Or.inl ⟨literal, hform, hright⟩⟩

/-- A target in front of a parenthesis is called with arguments. -/
theorem exists_called_iff :
    (∃ d u v w,
      target.value? s.context = some d ∧
      s.Translates target.spelling "" u ∧
      u.token.kind = .sign .openParen ∧
      u.Translates [] (target.text s.context) v ∧
      (arguments d).Gives depth v () w ∧
      w.Translates [] ";\n" t) ↔
      ∃ list, Spans (.call target list) s t := by
  have hpast : ∀ u v : State, s.Translates target.spelling "" u →
        u.Translates [] (target.text s.context) v →
      v.remaining < depth := by
    intro u v htarget hwrite
    exact Nat.lt_of_le_of_lt hwrite.remaining_le
      (Nat.lt_of_lt_of_le htarget.remaining_lt_of_designator hs)
  constructor
  · rintro ⟨d, u, v, w, hvalue, htarget, -, hwrite, harguments, hclose⟩
    have hall := htarget.trans hwrite
    rw [gives_arguments_iff (recognizes_expressions depth) (hpast u v htarget hwrite),
      hall.context_eq] at harguments
    obtain ⟨list, types, htypes, hsuits, harguments⟩ := harguments
    refine ⟨list, ⟨d, types, hvalue, htypes, hsuits⟩, trivial, ?_⟩
    simpa [Statement.spelling, Statement.text, String.append_assoc]
      using (hall.trans harguments).trans hclose
  · rintro ⟨list, hfound, -, htranslates⟩
    rw [Statement.WellFormed] at hfound
    obtain ⟨d, types, hvalue, htypes, hsuits⟩ := hfound
    obtain ⟨u, htarget, v, hwrite, w, harguments, _, hclose, rfl⟩ := htranslates.cut
      [(target.spelling, ""), ([], target.text s.context),
        (.sign .openParen :: argumentsSpelling list ++ [.sign .closeParen],
          "(" ++ argumentsText s.context list ++ ")"), ([], ";\n")]
      (by simp [Statement.spelling]) (by simp [Statement.text, String.append_assoc])
    refine ⟨d, u, v, w, hvalue, htarget, ?_, hwrite, ?_, hclose⟩
    · rw [← hwrite.token_eq]
      exact harguments.token_kind
    · rw [gives_arguments_iff (recognizes_expressions depth) (hpast u v htarget hwrite),
        (htarget.trans hwrite).context_eq]
      exact ⟨list, types, htypes, hsuits, harguments⟩

omit hs in
/-- A target in front of anything else is called without arguments. -/
theorem exists_calledBare_iff :
    (∃ d u,
      target.value? s.context = some d ∧
      s.Translates target.spelling "" u ∧
      (u.token.kind ≠ .sign .openBracket ∧
        u.token.kind ≠ .sign .openParen ∧
        u.token.kind ≠ .sign .assign) ∧
      suits u.context d.parameters [] = true ∧
      u.Translates [] (target.text s.context ++ "();\n") t) ↔
      Spans (.bareCall target) s t := by
  constructor
  · rintro ⟨d, u, hvalue, htarget, hstops, hsuits, hwrite⟩
    rw [htarget.context_eq] at hsuits
    refine ⟨⟨d, hvalue, hsuits⟩, ?_, ?_⟩
    · rw [hwrite.token_eq]
      exact hstops
    · simpa [Statement.spelling, Statement.text, String.append_assoc] using htarget.trans hwrite
  · rintro ⟨hfound, hstops, htranslates⟩
    rw [Statement.WellFormed] at hfound
    obtain ⟨d, hvalue, hsuits⟩ := hfound
    obtain ⟨u, htarget, _, hwrite, rfl⟩ := htranslates.cut
      [(target.spelling, ""), ([], target.text s.context ++ "();\n")]
      (by simp [Statement.spelling]) (by simp [Statement.text])
    rw [hwrite.token_eq] at hstops
    rw [← htarget.context_eq] at hsuits
    exact ⟨d, u, hvalue, htarget, hstops, hsuits, hwrite⟩

end Target

/-- A statement that begins with a designator: an assignment, a copy or a call. -/
theorem gives_designatorStatement_iff (hs : s.remaining ≤ depth) (a : Unit) :
    designatorStatement.Gives depth s a t ↔
      ∃ target,
        ((∃ value, Spans (.assignment target value) s t) ∨
          ∃ literal, Spans (.copy target literal) s t) ∨
        (∃ arguments, Spans (.call target arguments) s t) ∨
        Spans (.bareCall target) s t := by
  simp only [designatorStatement_eq, gives_bind, gives_target_iff hs, gives_behindTarget_iff,
    ← exists_assigned_iff hs, ← exists_called_iff hs, ← exists_calledBare_iff]
  constructor
  · rintro ⟨⟨d, _⟩, u, ⟨target, ⟨hvalue, hbracket⟩, rfl, htarget⟩, h⟩
    obtain ⟨v, w, h⟩ | ⟨hparen, v, w, h⟩ | ⟨hassign, hparen, h⟩ := h
    · exact ⟨target, Or.inl ⟨d, u, v, w, hvalue, htarget, h⟩⟩
    · exact ⟨target, Or.inr (Or.inl ⟨d, u, v, w, hvalue, htarget, hparen, h⟩)⟩
    · exact ⟨target, Or.inr (Or.inr ⟨d, u, hvalue, htarget, ⟨hbracket, hparen, hassign⟩, h⟩)⟩
  · rintro ⟨target, ⟨d, u, v, w, hvalue, htarget, hassign, h⟩ | ⟨d, u, v, w, hvalue, htarget,
      hparen, h⟩ |
      ⟨d, u, hvalue, htarget, ⟨hbracket, hparen, hassign⟩, h⟩⟩
    · have hbracket : u.token.kind ≠ .sign .openBracket := by
        rw [hassign.token_kind]
        decide
      exact ⟨(d, _), u, ⟨target, ⟨hvalue, hbracket⟩, rfl, htarget⟩, Or.inl ⟨v, w, hassign, h⟩⟩
    · exact ⟨(d, _), u, ⟨target, ⟨hvalue, by simp [hparen]⟩, rfl, htarget⟩,
        Or.inr (Or.inl ⟨hparen, v, w, h⟩)⟩
    · exact ⟨(d, _), u, ⟨target, ⟨hvalue, hbracket⟩, rfl, htarget⟩,
        Or.inr (Or.inr ⟨hassign, hparen, h⟩)⟩

/-! ### All statements -/

/-- The kind of the token where a statement stands, which is the semicolon for an empty one. -/
def openingKind : Statement → Token.Kind
  | .assignment _ _ => .identifier
  | .copy _ _ => .identifier
  | .call _ _ => .identifier
  | .bareCall _ => .identifier
  | .choice _ _ _ _ => .keyword .IF
  | .loopWhile _ _ => .keyword .WHILE
  | .loopUntil _ _ => .keyword .REPEAT
  | .result _ => .keyword .RETURN
  | .count counter _ _ => .keyword counter.keyword
  | .assertion _ => .keyword .ASSERT
  | .jump jump => .keyword jump.keyword
  | .empty => .sign .semicolon

theorem Spans.token_kind {found : Statement} (h : Spans found s t) :
    s.token.kind = openingKind found := by
  obtain ⟨-, hstops, htranslates⟩ := h
  have hdesignator : ∀ (target : Grammar.Designator) (words : List Word) (text : String),
      s.Translates (target.spelling ++ words) text t → s.token.kind = .identifier := by
    intro target words text h
    obtain ⟨name, behind, hspelling⟩ := target.spelling_eq_cons
    rw [hspelling] at h
    exact h.token_kind
  cases found with
  | assignment target value =>
    rw [Statement.spelling] at htranslates
    exact hdesignator target _ _ htranslates
  | copy target literal =>
    rw [Statement.spelling] at htranslates
    exact hdesignator target _ _ htranslates
  | call target arguments =>
    rw [Statement.spelling, List.append_assoc] at htranslates
    exact hdesignator target _ _ htranslates
  | bareCall target =>
    rw [Statement.spelling, ← List.append_nil target.spelling] at htranslates
    exact hdesignator target _ _ htranslates
  | choice condition body others otherwise =>
    rw [Statement.spelling] at htranslates
    exact htranslates.token_kind
  | loopWhile condition body =>
    rw [Statement.spelling] at htranslates
    exact htranslates.token_kind
  | loopUntil body condition =>
    rw [Statement.spelling] at htranslates
    exact htranslates.token_kind
  | result value =>
    cases value with
    | none =>
      rw [Statement.spelling] at htranslates
      exact htranslates.token_kind
    | some value =>
      rw [Statement.spelling] at htranslates
      exact htranslates.token_kind
  | count counter target step =>
    rw [Statement.spelling] at htranslates
    exact htranslates.token_kind
  | assertion condition =>
    rw [Statement.spelling] at htranslates
    exact htranslates.token_kind
  | jump jump =>
    rw [Statement.spelling] at htranslates
    exact htranslates.token_kind
  | empty =>
    rw [Statement.spelling, Statement.text, State.translates_nil_iff] at htranslates
    rw [htranslates] at hstops
    exact hstops

section FirstToken

variable (hstatement : RecognizesStatements depth) (hs : s.remaining ≤ depth)
include hstatement hs

/-- What is read as a statement is one; the cases are those of the token it begins with. -/
theorem exists_statement_of_statementRule {a : Unit} (h : statementRule.Gives depth s a t) :
    ∃ found, Spans found s t := by
  rw [statementRule, gives_kind_bind] at h
  split at h
  · rw [gives_designatorStatement_iff hs] at h
    obtain ⟨target, (⟨value, h⟩ | ⟨literal, h⟩) | ⟨list, h⟩ | h⟩ := h
    all_goals exact ⟨_, h⟩
  · rename_i hkind
    obtain ⟨condition, body, others, otherwise, h⟩ :=
      (gives_ifStatement_iff hstatement hs hkind a).1 h
    exact ⟨_, h⟩
  · rename_i hkind
    obtain ⟨condition, body, h⟩ := (gives_whileStatement_iff hstatement hs hkind a).1 h
    exact ⟨_, h⟩
  · rename_i hkind
    obtain ⟨body, condition, h⟩ := (gives_repeatStatement_iff hstatement hs hkind a).1 h
    exact ⟨_, h⟩
  · rename_i hkind
    obtain ⟨value, h⟩ := (gives_returnStatement_iff hs hkind a).1 h
    exact ⟨_, h⟩
  · rename_i hkind
    obtain ⟨target, step, h⟩ := (gives_countStatement_iff hs .increase hkind a).1 h
    exact ⟨_, h⟩
  · rename_i hkind
    obtain ⟨target, step, h⟩ := (gives_countStatement_iff hs .decrease hkind a).1 h
    exact ⟨_, h⟩
  · rename_i hkind
    obtain ⟨condition, h⟩ := (gives_assertStatement_iff hs hkind a).1 h
    exact ⟨_, h⟩
  · rename_i hkind
    exact ⟨_, (gives_wordStatement_iff .behind hkind a).1 h⟩
  · rename_i hkind
    exact ⟨_, (gives_wordStatement_iff .next hkind a).1 h⟩
  · rename_i hkind
    rw [gives_pure] at h
    obtain ⟨-, rfl⟩ := h
    refine ⟨.empty, trivial, hkind, ?_⟩
    rw [Statement.spelling, Statement.text]
    exact .refl t
  · simp at h

/-- Every statement is read: its first token tells which it is. -/
theorem gives_statementRule {found : Statement} (h : Spans found s t) (a : Unit) :
    statementRule.Gives depth s a t := by
  have hkind := h.token_kind
  rw [statementRule, gives_kind_bind, hkind]
  cases found with
  | assignment target value =>
    exact (gives_designatorStatement_iff hs a).2 ⟨target, Or.inl (Or.inl ⟨value, h⟩)⟩
  | copy target literal =>
    exact (gives_designatorStatement_iff hs a).2 ⟨target, Or.inl (Or.inr ⟨literal, h⟩)⟩
  | call target list =>
    exact (gives_designatorStatement_iff hs a).2 ⟨target, Or.inr (Or.inl ⟨list, h⟩)⟩
  | bareCall target =>
    exact (gives_designatorStatement_iff hs a).2 ⟨target, Or.inr (Or.inr h)⟩
  | choice condition body others otherwise =>
    exact (gives_ifStatement_iff hstatement hs hkind a).2 ⟨condition, body, others, otherwise, h⟩
  | loopWhile condition body =>
    exact (gives_whileStatement_iff hstatement hs hkind a).2 ⟨condition, body, h⟩
  | loopUntil body condition =>
    exact (gives_repeatStatement_iff hstatement hs hkind a).2 ⟨body, condition, h⟩
  | result value =>
    exact (gives_returnStatement_iff hs hkind a).2 ⟨value, h⟩
  | count counter target step =>
    have hgives := (gives_countStatement_iff hs counter hkind a).2 ⟨target, step, h⟩
    cases counter <;> exact hgives
  | assertion condition =>
    exact (gives_assertStatement_iff hs hkind a).2 ⟨condition, h⟩
  | jump jump =>
    have hgives : (wordStatement jump.text).Gives depth s a t :=
      (gives_wordStatement_iff jump hkind a).2 h
    cases jump <;> exact hgives
  | empty =>
    obtain ⟨-, -, htranslates⟩ := h
    rw [Statement.spelling, Statement.text, State.translates_nil_iff] at htranslates
    exact (gives_pure _ _).2 ⟨rfl, by simpa using htranslates⟩

end FirstToken

theorem recognizes_statements (depth : Nat) : RecognizesStatements depth := by
  induction depth with
  | zero =>
    intro s hs
    exact absurd hs (Nat.not_lt_zero _)
  | succ depth ih =>
    intro s hs a t
    rw [statement, gives_call]
    constructor
    · exact exists_statement_of_statementRule ih (Nat.le_of_lt_succ hs)
    · rintro ⟨found, h⟩
      exact gives_statementRule ih (Nat.le_of_lt_succ hs) h a

/--
Reading statements in any state, with room for as many rules inside each other as there are tokens
to come or for more, succeeds exactly if the coming tokens spell a well-formed body that stands in
front of a token that ends it.  It then stops at that token and writes the text of the body; the
symbols, the types and the interface stay as they were.
-/
theorem statements_run_eq_ok_iff (s t : State) (extra : Nat) :
    statements.run (Rule.run (s.remaining + 1 + extra)) s = .ok () t ↔
      ∃ body : Body,
        BodyWellFormed s.context s.scope.result body ∧
        endsSequence t.token.kind = true ∧
        s.Translates (bodySpelling body) (bodyText s.context body) t ∧
        t.symbols = s.symbols ∧ t.types = s.types ∧
        t.output = s.output.write (bodyText s.context body) ∧
        t.output.units.interface = s.output.units.interface := by
  have hs : s.remaining < s.remaining + 1 + extra := by omega
  refine (gives_statements_iff (recognizes_statements _) hs ()).trans ?_
  constructor
  · rintro ⟨body, hbody, hends, htranslates⟩
    obtain ⟨cursor, token, hframe⟩ := htranslates.frame
    refine ⟨body, hbody, hends, htranslates, ?_⟩
    rw [hframe]
    exact ⟨rfl, rfl, rfl, s.output.write_interface _⟩
  · rintro ⟨body, hbody, hends, htranslates, -⟩
    exact ⟨body, hbody, hends, htranslates⟩

end Compilation
end Oberon
