import Oberon.Proofs.Translation.Designator

/-!
# The translation of factors and expressions

A factor is read exactly on the spelling of a well-typed factor of the grammar, whichever
alternative its first token picks (`exists_factor_of_factorRule`, `gives_factorRule`).  With factors
the expressions are complete: `expression_run_eq_ok_iff` states for every state on which tokens an
expression is read, with which type and which text.
-/

namespace Oberon
namespace Compilation

open Oberon.Grammar
open Oberon.Compilation.Action

variable {depth : Nat} {s t : State}

/-- A literal is taken and written as it stands. -/
theorem gives_literal_iff
    {kind : LiteralKind} (hkind : s.token.kind = kind.tokenKind) (type : DataType) :
    factorRule.Gives depth s type t ↔
      ∃ l : Literal, l.kind = kind ∧ type = l.kind.type ∧ s.Translates [l.word] l.lexeme t := by
  have hopen : kind.tokenKind.fixedText? = none := by
    cases kind <;> rfl
  have hrule : factorRule.Gives depth s type t ↔ (literal kind.type).Gives depth s type t := by
    rw [factorRule, gives_kind_bind, hkind]
    cases kind <;> rfl
  simp only [hrule, literal, gives_bind, gives_lexeme, gives_write_iff, gives_pure]
  constructor
  · rintro ⟨_, u, ⟨rfl, htake⟩, _, v, hwrite, rfl, rfl⟩
    refine ⟨⟨kind, s.token.lexeme⟩, rfl, rfl, ?_⟩
    have htaken : s.Translates [(kind.tokenKind, s.token.lexeme)] "" u := by
      rw [State.translates_take_iff, s.token.word_eq_iff_of_open hopen]
      exact ⟨⟨hkind, rfl⟩, htake⟩
    simpa [Literal.word] using htaken.trans hwrite
  · rintro ⟨⟨_, lexeme⟩, rfl, rfl, htranslates⟩
    obtain ⟨u, htaken, _, hwrite, rfl⟩ := htranslates.cut
      [([(Literal.mk _ lexeme).word], ""), ([], lexeme)] rfl (by simp)
    rw [State.translates_take_iff, Literal.word, s.token.word_eq_iff_of_open hopen] at htaken
    obtain ⟨⟨-, rfl⟩, htake⟩ := htaken
    exact ⟨_, u, ⟨rfl, htake⟩, (), t, hwrite, rfl, rfl⟩

/-- The demand of a frame on the type of the argument. -/
def Frame.demand (frame : Frame) (found : DataType) : Action Unit :=
  match frame.operand with
  | some wanted => requireCompatible found wanted
  | none => pure ()

theorem gives_demand_iff (frame : Frame) (found : DataType) (a : Unit) :
    (frame.demand found).Gives depth s a t ↔
      (∀ wanted ∈ frame.operand, s.context.types.compatible found wanted = true) ∧ t = s := by
  unfold Frame.demand
  cases frame.operand with
  | none => simp
  | some wanted => simp [State.context]

theorem framed_eq (frame : Frame) :
    framed frame = (do
      take
      expect (.sign .openParen)
      write frame.opening
      let type ← expression
      frame.demand type
      write frame.closing
      expect (.sign .closeParen)
      return frame.result) := by
  obtain ⟨opening, closing, operand, result⟩ := frame
  cases operand with
  | none => rfl
  | some wanted => rfl

section Alternatives

variable (hexpression : Recognizes depth expression Phrases.expressions)
include hexpression

/-- A function with a frame around its argument. -/
theorem gives_framed_iff
    (hs : s.remaining ≤ depth) {word : Keyword} (hkind : s.token.kind = .keyword word)
    (frame : Frame) (type : DataType) :
    (framed frame).Gives depth s type t ↔
      ∃ (argument : Expression) (found : DataType),
        argument.type? s.context = some found ∧
        (∀ wanted ∈ frame.operand, s.context.types.compatible found wanted = true) ∧
        type = frame.result ∧
        s.Translates (.keyword word :: .sign .openParen :: argument.spelling ++ [.sign .closeParen])
          (frame.opening ++ argument.text s.context ++ frame.closing) t := by
  have henclosed := gives_enclosed_iff (t := t) hexpression hs
    (.keyword word) (.sign .closeParen) (by simp [Word.keyword]) (by decide) [.sign .openParen] []
    frame.opening frame.closing
  simp only [framed_eq, gives_bind, gives_take_keyword_iff hkind, gives_expect_sign_iff,
    gives_write_iff, gives_demand_iff, gives_pure]
  constructor
  · rintro ⟨_, u, hword, _, v, hopen, _, w, hwrite, found, x, hargument, _, y, ⟨hfits, rfl⟩, _, z,
      hwrite', _, t, hclose, rfl, rfl⟩
    obtain ⟨argument, htype, hfits, htranslates⟩ :=
      (henclosed found fun c => ∀ wanted ∈ frame.operand, c.types.compatible found wanted = true).1
        ⟨w, y, by simpa using (hword.trans hopen).trans hwrite, hargument, hfits,
          by simpa using hwrite'.trans hclose⟩
    refine ⟨argument, found, htype, hfits, rfl, ?_⟩
    simpa [String.append_assoc] using htranslates
  · rintro ⟨argument, found, htype, hfits, rfl, htranslates⟩
    obtain ⟨w, y, hopen, hargument, hfits, hclose⟩ :=
      (henclosed found fun c => ∀ wanted ∈ frame.operand, c.types.compatible found wanted = true).2
        ⟨argument, htype, hfits, by simpa [String.append_assoc] using htranslates⟩
    obtain ⟨u, hword, v, hopen, _, hwrite, rfl⟩ := hopen.cut
      [([.keyword word], ""), ([.sign .openParen], ""), ([], frame.opening)] rfl (by simp)
    obtain ⟨z, hwrite', _, hclose, rfl⟩ := hclose.cut
      [([], frame.closing), ([.sign .closeParen], "")] rfl (by simp)
    exact ⟨(), u, hword, (), v, hopen, (), w, hwrite, found, y, hargument, (), y, ⟨hfits, rfl⟩, (),
      z, hwrite', (), t, hclose, rfl, rfl⟩

/--
The absolute value; its argument is written behind the function that the type of the argument picks.
-/
theorem gives_absolute_iff
    (hs : s.remaining ≤ depth) (hkind : s.token.kind = .keyword .ABS) (type : DataType) :
    absolute.Gives depth s type t ↔
      ∃ argument : Expression,
        argument.type? s.context = some type ∧
        s.Translates (Factor.function .abs argument).spelling
          ((Factor.function .abs argument).text s.context) t := by
  simp only [absolute, gives_bind, gives_take_keyword_iff hkind, gives_expect_sign_iff,
    gives_write_iff, gives_pure]
  have hpast : ∀ u v : State, s.Translates [.keyword .ABS] "" u →
        u.Translates [.sign .openParen] "" v →
      v.remaining < depth := by
    intro u v hword hopen
    exact Nat.lt_of_lt_of_le ((hword.trans hopen).remaining_lt (by decide)) hs
  have htext : ∀ (v w : State) (result : DataType × String), v.remaining < depth →
      ((textOf expression).Gives depth v result w ↔
        ∃ e : Expression, (e.type? v.context = some result.1 ∧ e.StopsBefore w.token.kind) ∧
          result.2 = e.text v.context ∧ v.Translates e.spelling "" w) := by
    intro v w result hv
    refine gives_textOf_iff Expression.spelling (Expression.text v.context)
      (fun type e kind => e.type? v.context = some type ∧ e.StopsBefore kind) ?_ result
    intro type u
    refine (gives_expression_iff hexpression (s := { v with output := v.output.openCapture }) hv
      type).trans ?_
    simp only [and_assoc]
    rfl
  constructor
  · rintro ⟨_, u, hword, _, v, hopen, result, w, hargument, _, x, hclose, _, y, hwrite, rfl, rfl⟩
    rw [htext v w result (hpast u v hword hopen)] at hargument
    obtain ⟨argument, ⟨htype, -⟩, hresult, hargument⟩ := hargument
    have hall := hword.trans hopen
    rw [hall.context_eq] at htype hresult
    refine ⟨argument, htype, ?_⟩
    rw [hresult] at hwrite
    simpa [Factor.spelling, Factor.text, Function.keyword, Function.text, htype,
      String.append_assoc]
      using (hall.trans hargument).trans (hclose.trans hwrite)
  · rintro ⟨argument, htype, htranslates⟩
    obtain ⟨u, hword, v, hopen, w, hargument, x, hclose, _, hwrite, rfl⟩ := htranslates.cut
      [([.keyword .ABS], ""), ([.sign .openParen], ""), (argument.spelling, ""),
        ([.sign .closeParen], ""),
        ([], (if type.isReal then "fabs" else "abs") ++ "(" ++ argument.text s.context ++ ")")]
      (by simp [Factor.spelling, Function.keyword]) (by simp [Factor.text, Function.text, htype])
    have hall := hword.trans hopen
    refine ⟨(), u, hword, (), v, hopen, (type, argument.text s.context), w, ?_, (), x, hclose, (),
      t, hwrite, rfl, rfl⟩
    rw [htext v w _ (hpast u v hword hopen), hall.context_eq]
    refine ⟨argument, ⟨htype, ?_⟩, rfl, hargument⟩
    rw [hclose.token_kind]
    exact argument.stopsBefore_of_ends (by decide)

theorem gives_shift_iff
    (hs : s.remaining ≤ depth)
    (hkind : s.token.kind = .keyword .ASH)
    (type : DataType) :
    factorRule.Gives depth s type t ↔
      ∃ value amount : Expression,
        (Factor.shift value amount).type? s.context = some type ∧
        s.Translates (Factor.shift value amount).spelling
          ((Factor.shift value amount).text s.context) t := by
  rw [factorRule, gives_kind_bind, hkind]
  simp only [shift, gives_bind, gives_take_keyword_iff hkind, gives_expect_sign_iff,
    gives_moduleName, gives_write_iff, gives_requireCompatible, gives_pure,
    Factor.type?_shift_eq_some_iff]
  have hvalue :=
    fun u : State => gives_enclosed_iff (t := u) hexpression hs (.keyword .ASH) (.sign .comma)
    (by decide) (by decide) [.sign .openParen] [] (Target.shiftMacro s.context.moduleName ++ "(")
      ", " type
    fun c => c.types.compatible type .integer = true
  constructor
  · rintro ⟨_, u, hword, _, v, hopen, _, v, ⟨rfl, rfl⟩, _, w, hshift, _, x, hgives, _, x,
      ⟨hfirst, rfl⟩, _, y, hcomma, _, z, hblank, steps, z', hgives', _, z', ⟨hsecond, rfl⟩, _, x',
      hclose, _, t, hwrite, rfl, rfl⟩
    have hall := hword.trans hopen
    rw [show v.moduleName = s.context.moduleName from hall.moduleName_eq] at hshift
    obtain ⟨value, htype, hfirst, hvalue⟩ := (hvalue z).1
      ⟨w, x, by simpa using hall.trans hshift, hgives, hfirst, by simpa using hcomma.trans hblank⟩
    have hz : z.remaining < depth := Nat.lt_of_lt_of_le (hvalue.remaining_lt (by decide)) hs
    obtain ⟨amount, htype', hamount⟩ := (gives_expression_before_iff hexpression hz
      (.sign .closeParen) (by decide) [] ")" steps).1 ⟨z', hgives',
        by simpa using hclose.trans hwrite⟩
    rw [hvalue.context_eq] at htype' hamount
    rw [← (hclose.trans hwrite).types_eq, (hvalue.trans hamount).types_eq] at hsecond
    refine ⟨value, amount, ⟨steps, htype, htype', hfirst, hsecond⟩, ?_⟩
    simpa [Factor.spelling, Factor.text, String.append_assoc, State.context]
      using hvalue.trans hamount
  · rintro ⟨value, amount, ⟨steps, htype, htype', hfirst, hsecond⟩, htranslates⟩
    obtain ⟨z, hbefore, _, hamount, rfl⟩ := htranslates.cut
      [([.keyword .ASH, .sign .openParen] ++ (value.spelling ++ [.sign .comma]),
          (Target.shiftMacro s.context.moduleName ++ "(") ++ (value.text s.context ++ ", ")),
        (amount.spelling ++ [.sign .closeParen], amount.text s.context ++ ")")]
      (by simp [Factor.spelling]) (by simp [Factor.text, String.append_assoc])
    obtain ⟨w, x, hopen, hgives, hfirst, hcomma⟩ := (hvalue z).2 ⟨value, htype, hfirst, hbefore⟩
    obtain ⟨u, hword, v, hopen, _, hshift, rfl⟩ := hopen.cut
      [([.keyword .ASH], ""), ([.sign .openParen], ""),
        ([], Target.shiftMacro s.context.moduleName ++ "(")]
      rfl (by simp)
    obtain ⟨y, hcomma, _, hblank, rfl⟩ := hcomma.cut [([.sign .comma], ""), ([], ", ")] rfl rfl
    have hz : z.remaining < depth := Nat.lt_of_lt_of_le (hbefore.remaining_lt (by decide)) hs
    rw [← hbefore.context_eq] at htype' hamount hsecond
    obtain ⟨z', hgives', hclose⟩ := (gives_expression_before_iff hexpression hz
      (.sign .closeParen) (by decide) [] ")" steps).2 ⟨amount, htype', hamount⟩
    rw [← context_eq_of_expression hexpression hz hgives'] at hsecond
    obtain ⟨x', hclose, _, hwrite, rfl⟩ := hclose.cut [([.sign .closeParen], ""), ([], ")")] rfl rfl
    rw [← (hword.trans hopen).context_eq] at hshift
    exact ⟨(), u, hword, (), v, hopen, _, v, ⟨rfl, rfl⟩, (), w, hshift, type, x, hgives, (), x,
      ⟨hfirst, rfl⟩, (), y, hcomma, (), z, hblank, steps, z', hgives', (), z', ⟨hsecond, rfl⟩, (),
      x', hclose, (), t, hwrite, rfl, rfl⟩

/-- A variable, a constant or a call. -/
theorem gives_reference_iff
    (hs : s.remaining ≤ depth) (hkind : s.token.kind = .identifier) (type : DataType) :
    factorRule.Gives depth s type t ↔
      (∃ target : Grammar.Designator,
        (Factor.reference target).type? s.context = some type ∧
        (Factor.reference target).StopsBefore t.token.kind ∧
        s.Translates target.spelling (target.text s.context) t) ∨
      ∃ (target : Grammar.Designator) (list : List Expression),
        (Factor.call target list).type? s.context = some type ∧
        s.Translates (Factor.call target list).spelling
          ((Factor.call target list).text s.context) t := by
  rw [factorRule, gives_kind_bind, hkind]
  simp only [reference, gives_bind, gives_designator_iff hexpression hs, gives_sees, gives_ite,
    gives_pure]
  have hpast : ∀ (target : Grammar.Designator) (text : String) (u : State),
      s.Translates target.spelling text u → u.remaining < depth := by
    intro target text u htarget
    obtain ⟨name, words, hspelling⟩ := target.spelling_eq_cons
    rw [hspelling] at htarget
    exact Nat.lt_of_lt_of_le (htarget.remaining_lt (by simp [Word.identifier])) hs
  constructor
  · rintro ⟨d, u, ⟨target, hvalue, hbracket, htarget⟩, _, u, ⟨rfl, rfl⟩,
      ⟨-, _, v, harguments, rfl, rfl⟩ | ⟨hparen, rfl, rfl⟩⟩
    · rw [gives_arguments_iff hexpression (hpast target _ u htarget), htarget.context_eq]
        at harguments
      obtain ⟨list, types, htypes, hsuits, hlist⟩ := harguments
      refine Or.inr ⟨target, list, by simp [Factor.type?, hvalue, htypes, hsuits], ?_⟩
      simpa [Factor.spelling, Factor.text, String.append_assoc] using htarget.trans hlist
    · refine Or.inl ⟨target, by simp [Factor.type?, hvalue], ⟨hbracket, by simpa using hparen⟩,
        htarget⟩
  · rintro (⟨target, htype, ⟨hbracket, hparen⟩, htarget⟩ | ⟨target, list, htype, htranslates⟩)
    · simp only [Factor.type?, Option.bind_eq_bind, Option.bind_eq_some_iff, Option.pure_def,
        Option.some.injEq] at htype
      obtain ⟨d, hvalue, rfl⟩ := htype
      exact ⟨d, t, ⟨target, hvalue, hbracket, htarget⟩, _, t, ⟨rfl, rfl⟩,
        Or.inr ⟨by simpa using hparen, rfl, rfl⟩⟩
    · simp only [Factor.type?, Option.bind_eq_bind, Option.bind_eq_some_iff,
        Option.ite_none_right_eq_some,
        Option.some.injEq] at htype
      obtain ⟨d, hvalue, types, htypes, hsuits, rfl⟩ := htype
      obtain ⟨u, htarget, _, hlist, rfl⟩ := htranslates.cut
        [(target.spelling, target.text s.context),
          (.sign .openParen :: argumentsSpelling list ++ [.sign .closeParen],
            "(" ++ argumentsText s.context list ++ ")")]
        (by simp [Factor.spelling]) (by simp [Factor.text, String.append_assoc])
      have hkind := hlist.token_kind
      rw [← htarget.context_eq] at htypes hsuits hlist
      refine ⟨d, u, ⟨target, hvalue, by simp [hkind, Word.sign], htarget⟩, _, u, ⟨rfl, rfl⟩,
        Or.inl ⟨decide_eq_true hkind, (), t, ?_, rfl, rfl⟩⟩
      rw [gives_arguments_iff hexpression (hpast target _ u htarget)]
      exact ⟨list, types, htypes, hsuits, hlist⟩

/-- An expression in parentheses. -/
theorem gives_group_iff
    (hs : s.remaining ≤ depth) (hkind : s.token.kind = .sign .openParen) (type : DataType) :
    factorRule.Gives depth s type t ↔
      ∃ inner : Expression,
        inner.type? s.context = some type ∧
        s.Translates (Factor.group inner).spelling ((Factor.group inner).text s.context) t := by
  have henclosed :=
    gives_enclosed_iff (t := t) hexpression hs (.sign .openParen) (.sign .closeParen)
    (by decide) (by decide) [] [] "(" ")" type fun _ => True
  rw [factorRule, gives_kind_bind, hkind]
  simp only [gives_bind, gives_take_sign_iff hkind, gives_write_iff, gives_expect_sign_iff,
    gives_pure]
  constructor
  · rintro ⟨_, u, hopen, _, v, hwrite, _, w, hgives, _, x, hclose, _, t, hwrite', rfl, rfl⟩
    obtain ⟨inner, htype, -, htranslates⟩ := henclosed.1
      ⟨v, w, hopen.trans hwrite, hgives, trivial, hclose.trans hwrite'⟩
    refine ⟨inner, htype, ?_⟩
    simpa [Factor.spelling, Factor.text, String.append_assoc] using htranslates
  · rintro ⟨inner, htype, htranslates⟩
    obtain ⟨v, w, hopen, hgives, -, hclose⟩ := henclosed.2
      ⟨inner, htype, trivial,
        by simpa [Factor.spelling, Factor.text, String.append_assoc] using htranslates⟩
    obtain ⟨u, hopen, _, hwrite, rfl⟩ := hopen.cut [([.sign .openParen], ""), ([], "(")] rfl rfl
    obtain ⟨x, hclose, _, hwrite', rfl⟩ := hclose.cut [([.sign .closeParen], ""), ([], ")")] rfl rfl
    exact ⟨(), u, hopen, (), v, hwrite, type, w, hgives, (), x, hclose, (), t, hwrite', rfl, rfl⟩

end Alternatives

theorem gives_negation_iff
    (hfactor : Recognizes depth factor Phrases.factors)
    (hs : s.remaining ≤ depth)
    (hkind : s.token.kind = .sign .tilde)
    (type : DataType) :
    factorRule.Gives depth s type t ↔
      ∃ operand : Factor,
        (Factor.negation operand).type? s.context = some type ∧
        operand.StopsBefore t.token.kind ∧
        s.Translates (Factor.negation operand).spelling
          ((Factor.negation operand).text s.context) t := by
  have hpast : ∀ u : State, s.Translates [.sign .tilde] "!" u → u.remaining < depth := by
    intro u htilde
    exact Nat.lt_of_lt_of_le (htilde.remaining_lt (by decide)) hs
  rw [factorRule, gives_kind_bind, hkind]
  simp only [gives_bind, gives_take_sign_iff hkind, gives_write_iff, gives_requireCompatible,
    gives_pure]
  constructor
  · rintro ⟨_, u, htilde, _, v, hwrite, found, _, hgives, _, t, ⟨hboolean, rfl⟩, rfl, rfl⟩
    have hall : s.Translates [.sign .tilde] "!" v := by simpa using htilde.trans hwrite
    rw [hfactor v (hpast v hall), hall.context_eq] at hgives
    obtain ⟨operand, htype, hstops, htranslates⟩ := hgives
    have hboolean : s.context.types.compatible found .boolean = true := by
      rw [(hall.trans htranslates).types_eq] at hboolean
      exact hboolean
    refine ⟨operand, ?_, hstops, ?_⟩
    · simp [Factor.type?, show operand.type? s.context = some found from htype, hboolean]
    · simpa [Factor.spelling, Factor.text, Phrases.factors] using hall.trans htranslates
  · rintro ⟨operand, htype, hstops, htranslates⟩
    simp only [Factor.type?, Option.bind_eq_bind, Option.bind_eq_some_iff,
      Option.ite_none_right_eq_some,
      Option.some.injEq] at htype
    obtain ⟨found, htype, hboolean, rfl⟩ := htype
    obtain ⟨u, htilde, v, hwrite, _, hoperand, rfl⟩ := htranslates.cut
      [([.sign .tilde], ""), ([], "!"), (operand.spelling, operand.text s.context)]
      (by simp [Factor.spelling]) (by simp [Factor.text])
    have hall : s.Translates [.sign .tilde] "!" v := by simpa using htilde.trans hwrite
    have hcontext := hoperand.context_eq.trans hall.context_eq
    rw [← hcontext] at hboolean
    have hgives : factor.Gives depth v found t := by
      rw [hfactor v (hpast v hall), hall.context_eq]
      exact ⟨operand, htype, hstops, hoperand⟩
    exact ⟨(), u, htilde, (), v, hwrite, found, t, hgives, (), t, ⟨hboolean, rfl⟩, rfl, rfl⟩

/-! ### Functions -/

section Frames

variable {f : Function} {frame : Frame} (hframe : Frame.ofKeyword? f.keyword = some frame)
include hframe

theorem function_type?_iff (c : Context) (found type : DataType) :
    f.type? c found = some type ↔
      (∀ wanted ∈ frame.operand, c.types.compatible found wanted = true) ∧ type = frame.result := by
  cases f <;> cases hframe <;> simp [Function.type?, @eq_comm _ type]

theorem function_text_eq (found : Option DataType) (text : String) :
    f.text found text = frame.opening ++ text ++ frame.closing := by
  cases f <;> cases hframe <;> rfl

end Frames

/-- A frame belongs to a function of one argument. -/
theorem exists_function_of_frame
    {word : Keyword} {frame : Frame} (h : Frame.ofKeyword? word = some frame) :
    ∃ f : Function, word = f.keyword := by
  unfold Frame.ofKeyword? at h
  split at h
  · exact ⟨.odd, rfl⟩
  · exact ⟨.ord, rfl⟩
  · exact ⟨.chr, rfl⟩
  · exact ⟨.floor, rfl⟩
  · cases h

theorem gives_function_iff
    (hexpression : Recognizes depth expression Phrases.expressions)
    (hs : s.remaining ≤ depth)
    {f : Function}
    (hkind : s.token.kind = .keyword f.keyword)
    (type : DataType) :
    factorRule.Gives depth s type t ↔
      ∃ argument : Expression,
        (Factor.function f argument).type? s.context = some type ∧
        s.Translates (Factor.function f argument).spelling
          ((Factor.function f argument).text s.context) t := by
  by_cases habs : f = .abs
  · subst habs
    rw [factorRule, gives_kind_bind, hkind]
    refine (gives_absolute_iff hexpression hs hkind type).trans ?_
    simp [Factor.type?, Function.type?]
  · obtain ⟨frame, hframe⟩ : ∃ frame, Frame.ofKeyword? f.keyword = some frame := by
      cases f with
      | abs => exact absurd rfl habs
      | _ => exact ⟨_, rfl⟩
    have hrule : factorRule.Gives depth s type t ↔ (framed frame).Gives depth s type t := by
      rw [factorRule, gives_kind_bind, hkind]
      cases f with
      | abs => exact absurd rfl habs
      | _ =>
        cases hframe
        rfl
    rw [hrule, gives_framed_iff hexpression hs hkind]
    simp only [Factor.type?, Option.bind_eq_bind, Option.bind_eq_some_iff,
      function_type?_iff hframe, Factor.spelling, Factor.text, function_text_eq hframe]
    constructor
    · rintro ⟨argument, found, htype, hfits, rfl, htranslates⟩
      exact ⟨argument, ⟨found, htype, hfits, rfl⟩, htranslates⟩
    · rintro ⟨argument, ⟨found, htype, hfits, rfl⟩, htranslates⟩
      exact ⟨argument, found, htype, hfits, rfl, htranslates⟩

/-! ### Factors -/

section FirstToken

variable
  (hfactor : Recognizes depth factor Phrases.factors) (hs : s.remaining ≤ depth) {type : DataType}
include hfactor hs

/-- What is read as a factor is one of the grammar; the first token tells which one. -/
theorem exists_factor_of_factorRule (h : factorRule.Gives depth s type t) :
    ∃ phrase : Factor,
      phrase.type? s.context = some type ∧
      phrase.StopsBefore t.token.kind ∧
      s.Translates phrase.spelling (phrase.text s.context) t := by
  have hexpression := recognizes_expression hfactor
  have hliteral : ∀ kind : LiteralKind, s.token.kind = kind.tokenKind →
      ∃ phrase : Factor, phrase.type? s.context = some type ∧ phrase.StopsBefore t.token.kind ∧
        s.Translates phrase.spelling (phrase.text s.context) t := by
    intro kind hkind
    obtain ⟨l, -, rfl, htranslates⟩ := (gives_literal_iff hkind type).1 h
    exact ⟨.literal l, by rw [Factor.type?], trivial, by rwa [Factor.spelling, Factor.text]⟩
  have hcases := h
  rw [factorRule, gives_kind_bind] at hcases
  split at hcases
  · rename_i numeral hkind
    exact hliteral (.number numeral) hkind
  · rename_i hkind
    exact hliteral .char hkind
  · rename_i hkind
    exact hliteral .string hkind
  · rename_i hkind
    obtain ⟨inner, htype, htranslates⟩ := (gives_group_iff hexpression hs hkind type).1 h
    exact ⟨.group inner, by rwa [Factor.type?], trivial, htranslates⟩
  · rename_i hkind
    obtain ⟨operand, htype, hstops, htranslates⟩ := (gives_negation_iff hfactor hs hkind type).1 h
    exact ⟨.negation operand, htype, hstops, htranslates⟩
  · rename_i hkind
    obtain ⟨argument, htype, htranslates⟩ :=
      (gives_function_iff (f := .abs) hexpression hs hkind type).1 h
    exact ⟨.function .abs argument, htype, trivial, htranslates⟩
  · rename_i hkind
    obtain ⟨value, amount, htype, htranslates⟩ := (gives_shift_iff hexpression hs hkind type).1 h
    exact ⟨.shift value amount, htype, trivial, htranslates⟩
  · rename_i word _ _ hkind
    cases hframe : Frame.ofKeyword? word with
    | none => simp [hframe] at hcases
    | some frame =>
      obtain ⟨f, rfl⟩ := exists_function_of_frame hframe
      obtain ⟨argument, htype, htranslates⟩ := (gives_function_iff hexpression hs hkind type).1 h
      exact ⟨.function f argument, htype, trivial, htranslates⟩
  · rename_i hkind
    obtain ⟨target, htype, hstops, htranslates⟩ | ⟨target, list, htype, htranslates⟩ :=
      (gives_reference_iff hexpression hs hkind type).1 h
    · exact ⟨.reference target, htype, hstops, by rwa [Factor.spelling, Factor.text]⟩
    · exact ⟨.call target list, htype, trivial, htranslates⟩
  · simp at hcases

/-- A factor of the grammar is read where it stands. -/
theorem gives_factorRule
    (phrase : Factor)
    (htype : phrase.type? s.context = some type)
    (hstops : phrase.StopsBefore t.token.kind)
    (htranslates : s.Translates phrase.spelling (phrase.text s.context) t) :
    factorRule.Gives depth s type t := by
  have hexpression := recognizes_expression hfactor
  obtain ⟨word, words, hspelling, -⟩ := phrase.spelling_eq_cons
  have hfirst : s.token.kind = word.1 := by
    rw [hspelling] at htranslates
    exact htranslates.token_kind
  cases phrase with
  | literal l =>
    rw [Factor.spelling] at hspelling htranslates
    cases hspelling
    rw [Factor.type?] at htype
    rw [Factor.text] at htranslates
    exact (gives_literal_iff hfirst type).2 ⟨l, rfl, (Option.some.inj htype).symm, htranslates⟩
  | group inner =>
    rw [Factor.spelling] at hspelling
    cases hspelling
    rw [Factor.type?] at htype
    exact (gives_group_iff hexpression hs hfirst type).2 ⟨inner, htype, htranslates⟩
  | negation operand =>
    rw [Factor.spelling] at hspelling
    cases hspelling
    exact (gives_negation_iff hfactor hs hfirst type).2 ⟨operand, htype, hstops, htranslates⟩
  | function f argument =>
    rw [Factor.spelling] at hspelling
    cases hspelling
    exact (gives_function_iff hexpression hs hfirst type).2 ⟨argument, htype, htranslates⟩
  | shift value amount =>
    rw [Factor.spelling] at hspelling
    cases hspelling
    exact (gives_shift_iff hexpression hs hfirst type).2 ⟨value, amount, htype, htranslates⟩
  | reference target =>
    obtain ⟨name, rest, htarget⟩ := target.spelling_eq_cons
    rw [Factor.spelling, htarget] at hspelling
    cases hspelling
    rw [Factor.spelling, Factor.text] at htranslates
    exact (gives_reference_iff hexpression hs hfirst type).2
      (Or.inl ⟨target, htype, hstops, htranslates⟩)
  | call target list =>
    obtain ⟨name, rest, htarget⟩ := target.spelling_eq_cons
    rw [Factor.spelling, htarget] at hspelling
    cases hspelling
    exact (gives_reference_iff hexpression hs hfirst type).2
      (Or.inr ⟨target, list, htype, htranslates⟩)

end FirstToken

/--
Factors are recognized at every depth: the rules inside a factor start behind its first token.
-/
theorem recognizes_factor (depth : Nat) : Recognizes depth factor Phrases.factors := by
  induction depth with
  | zero =>
    intro s hs
    exact absurd hs (Nat.not_lt_zero _)
  | succ depth ih =>
    intro s hs type t
    rw [factor, gives_call]
    constructor
    · exact exists_factor_of_factorRule ih (Nat.le_of_lt_succ hs)
    · rintro ⟨phrase, htype, hstops, htranslates⟩
      exact gives_factorRule ih (Nat.le_of_lt_succ hs) phrase htype hstops htranslates

theorem recognizes_expressions (depth : Nat) : Recognizes depth expression Phrases.expressions :=
  recognizes_expression (recognizes_factor depth)

/--
Reading an expression in any state, with room for as many rules inside each other as there are
tokens to come or for more, succeeds with a type exactly if the coming tokens spell an expression of
that type that the token behind it does not continue.  It then takes these tokens, writes the text
of the expression and changes nothing else.
-/
theorem expression_run_eq_ok_iff (s t : State) (type : DataType) (extra : Nat) :
    expression.run (Rule.run (s.remaining + 1 + extra)) s = .ok type t ↔
      ∃ e : Expression,
        e.type? s.context = some type ∧
        e.StopsBefore t.token.kind ∧
        s.Translates e.spelling (e.text s.context) t :=
  recognizes_expressions (s.remaining + 1 + extra) s (by omega) type t

end Compilation
end Oberon
