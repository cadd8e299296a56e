import Oberon.Proofs.Translation.Sequence

/-!
# The translation of structured statements

Choices and loops are read exactly on the spelling of well-formed choices and loops, provided that
single statements are: their conditions are expressions that can serve as one, and their bodies end
before the keyword that closes them.
-/

namespace Oberon
namespace Compilation

open Oberon.Grammar
open Oberon.Compilation.Action

variable {depth : Nat} {s t : State}

/-! ### Conditions -/

theorem gives_condition_iff (hs : s.remaining < depth) (a : Unit) :
    condition.Gives depth s a t ↔
      ∃ e : Expression,
        e.IsCondition s.context ∧
        e.StopsBefore t.token.kind ∧
        s.Translates e.spelling (e.text s.context) t := by
  simp only [condition, gives_bind, gives_expression_iff (recognizes_expressions depth) hs,
    gives_requireCompatible]
  constructor
  · rintro ⟨type, _, ⟨e, htype, hstops, htranslates⟩, hboolean, rfl⟩
    rw [show t.types = s.context.types from htranslates.types_eq] at hboolean
    exact ⟨e, ⟨type, htype, hboolean⟩, hstops, htranslates⟩
  · rintro ⟨e, ⟨type, htype, hboolean⟩, hstops, htranslates⟩
    rw [← htranslates.context_eq] at hboolean
    exact ⟨type, t, ⟨e, htype, hstops, htranslates⟩, hboolean, rfl⟩

/-- A condition in front of a word that continues no expression. -/
theorem gives_condition_before_iff
    (hs : s.remaining < depth) (word : Word) (hends : EndsExpression word.1)
    (words : List Word) (text : String) :
    (∃ u, condition.Gives depth s () u ∧ u.Translates (word :: words) text t) ↔
      ∃ e : Expression,
        e.IsCondition s.context ∧
        s.Translates (e.spelling ++ word :: words) (e.text s.context ++ text) t := by
  simp only [gives_condition_iff hs]
  constructor
  · rintro ⟨u, ⟨e, hcondition, -, htranslates⟩, hbehind⟩
    exact ⟨e, hcondition, htranslates.trans hbehind⟩
  · rintro ⟨e, hcondition, htranslates⟩
    rw [State.translates_append_iff] at htranslates
    obtain ⟨u, hexpr, hbehind⟩ := htranslates
    refine ⟨u, ⟨e, hcondition, ?_, hexpr⟩, hbehind⟩
    rw [hbehind.token_kind]
    exact e.stopsBefore_of_ends hends

/-! ### The parts of a choice -/

/-- What is read behind the branches of a choice. -/
def choiceEnd : Action Unit := do
  if ← accept (.keyword .ELSE) then
    write "\x7d else \x7b\n"
    statements
  expect (.keyword .END)
  write "\x7d\n"

theorem ifStatement_eq :
    ifStatement = (do
      take
      write "if ("
      guarded .THEN
      repeatWhile (accept (.keyword .ELSIF)) (do write "\x7d else if ("; guarded .THEN)
      choiceEnd) := rfl

/-- Every further branch takes at least its keyword. -/
theorem branches_advance
    (s u v : State)
    (hmore : (accept (.keyword .ELSIF)).Gives depth s true u)
    (hbody : Gives depth (do write "\x7d else if ("; guarded .THEN) u () v) :
    v.remaining < s.remaining := by
  rw [gives_accept_keyword_iff] at hmore
  obtain ⟨hword, -⟩ | ⟨-, -, hfalse⟩ := hmore
  · exact Nat.lt_of_le_of_lt hbody.remaining_le (hword.remaining_lt (by decide))
  · cases hfalse

/-- The `ELSE` branch and the `END` behind it close the branches in front of them. -/
theorem State.Translates.closes_of_otherwise
    {otherwise : Option Body} {text : String}
    (h : s.Translates (otherwiseSpelling otherwise ++ [.keyword .END]) text t) :
    endsSequence s.token.kind = true ∧ s.token.kind ≠ .keyword .ELSIF := by
  cases otherwise with
  | none =>
    rw [otherwiseSpelling, List.nil_append] at h
    rw [h.token_kind]
    decide
  | some body =>
    rw [otherwiseSpelling, List.cons_append] at h
    rw [h.token_kind]
    decide

/-- In front of `ELSIF` branches, or of the end of a body, a body ends. -/
theorem State.Translates.endsSequence_of_branches
    {others : List (Expression × Body)} {text : String}
    (h : s.Translates (branchesSpelling others) text t) (hends : endsSequence t.token.kind = true) :
    endsSequence s.token.kind = true := by
  cases others with
  | nil =>
    rw [branchesSpelling] at h
    rwa [← h.token_eq]
  | cons next rest =>
    rw [branchesSpelling] at h
    rw [h.token_kind]
    rfl

/-! ### Choices and loops -/

section Structured

variable (hstatement : RecognizesStatements depth)
include hstatement

/-- A condition, a keyword and the statements that the condition guards. -/
theorem gives_guarded_iff
    (hs : s.remaining < depth)
    (word : Keyword)
    (hends : EndsExpression (.keyword word))
    (a : Unit) :
    (guarded word).Gives depth s a t ↔
      ∃ (e : Expression) (body : Body),
        e.IsCondition s.context ∧
        BodyWellFormed s.context s.scope.result body ∧
        endsSequence t.token.kind = true ∧
        s.Translates (e.spelling ++ .keyword word :: bodySpelling body)
          (e.text s.context ++ ") \x7b\n" ++ bodyText s.context body) t := by
  simp only [guarded, gives_bind, gives_write_iff, gives_expect_keyword_iff]
  constructor
  · rintro ⟨_, u, hcondition, _, v, hwrite, _, w, hword, hbody⟩
    have hbehind : u.Translates [.keyword word] ") \x7b\n" w := by simpa using hwrite.trans hword
    obtain ⟨e, hcondition, htranslates⟩ :=
      (gives_condition_before_iff hs (.keyword word) hends [] ") \x7b\n").1 ⟨u, hcondition, hbehind⟩
    have hw : w.remaining < depth := Nat.lt_of_le_of_lt htranslates.remaining_le hs
    rw [gives_statements_iff hstatement hw] at hbody
    obtain ⟨body, hbody, hclosing, hstatements⟩ := hbody
    rw [htranslates.context_eq, htranslates.scope_eq] at hbody
    rw [htranslates.context_eq] at hstatements
    refine ⟨e, body, hcondition, hbody, hclosing, ?_⟩
    simpa [String.append_assoc] using htranslates.trans hstatements
  · rintro ⟨e, body, hcondition, hbody, hclosing, htranslates⟩
    obtain ⟨w, hbefore, _, hstatements, rfl⟩ := htranslates.cut
      [(e.spelling ++ [.keyword word], e.text s.context ++ ") \x7b\n"),
        (bodySpelling body, bodyText s.context body)]
      (by simp) (by simp [String.append_assoc])
    obtain ⟨u, hcondition, hbehind⟩ :=
      (gives_condition_before_iff hs (.keyword word) hends [] ") \x7b\n").2 ⟨e, hcondition, hbefore⟩
    obtain ⟨v, hwrite, _, hword, rfl⟩ := hbehind.cut
      [([], ") \x7b\n"), ([.keyword word], "")] rfl (by simp)
    have hw : w.remaining < depth := Nat.lt_of_le_of_lt hbefore.remaining_le hs
    refine ⟨(), u, hcondition, (), v, hwrite, (), w, hword, ?_⟩
    rw [gives_statements_iff hstatement hw]
    rw [← hbefore.context_eq, ← hbefore.scope_eq] at hbody
    rw [← hbefore.context_eq] at hstatements
    exact ⟨body, hbody, hclosing, hstatements⟩

theorem gives_whileStatement_iff
    (hs : s.remaining ≤ depth) (hkind : s.token.kind = .keyword .WHILE) (a : Unit) :
    whileStatement.Gives depth s a t ↔ ∃ e body, Spans (.loopWhile e body) s t := by
  simp only [whileStatement, gives_bind, gives_take_keyword_iff hkind, gives_write_iff,
    gives_expect_keyword_iff]
  have hpast : ∀ u v : State, s.Translates [.keyword .WHILE] "" u → u.Translates [] "while (" v →
      v.remaining < depth := by
    intro u v hword hwrite
    exact Nat.lt_of_lt_of_le ((hword.trans hwrite).remaining_lt (by decide)) hs
  constructor
  · rintro ⟨_, u, hword, _, v, hwrite, _, w, hguarded, _, x, hend, hwrite'⟩
    have hall := hword.trans hwrite
    rw [gives_guarded_iff hstatement (hpast u v hword hwrite) .DO (by decide), hall.context_eq,
      hall.scope_eq] at hguarded
    obtain ⟨e, body, hcondition, hbody, -, htranslates⟩ := hguarded
    refine ⟨e, body, ⟨hcondition, hbody⟩, trivial, ?_⟩
    simpa [Statement.spelling, Statement.text, String.append_assoc]
      using (hall.trans htranslates).trans (hend.trans hwrite')
  · rintro ⟨e, body, hfound, -, htranslates⟩
    rw [Statement.WellFormed] at hfound
    obtain ⟨hcondition, hbody⟩ := hfound
    obtain ⟨u, hword, v, hwrite, w, hguarded, x, hend, _, hwrite', rfl⟩ := htranslates.cut
      [([.keyword .WHILE], ""), ([], "while ("),
        (e.spelling ++ .keyword .DO :: bodySpelling body,
          e.text s.context ++ ") \x7b\n" ++ bodyText s.context body),
        ([.keyword .END], ""), ([], "\x7d\n")]
      (by simp [Statement.spelling]) (by simp [Statement.text, String.append_assoc])
    have hall := hword.trans hwrite
    refine ⟨(), u, hword, (), v, hwrite, (), w, ?_, (), x, hend, hwrite'⟩
    rw [gives_guarded_iff hstatement (hpast u v hword hwrite) .DO (by decide), hall.context_eq,
      hall.scope_eq]
    exact ⟨e, body, hcondition, hbody, by rw [hend.token_kind]; rfl, hguarded⟩

theorem gives_repeatStatement_iff
    (hs : s.remaining ≤ depth) (hkind : s.token.kind = .keyword .REPEAT) (a : Unit) :
    repeatStatement.Gives depth s a t ↔ ∃ body e, Spans (.loopUntil body e) s t := by
  simp only [repeatStatement, gives_bind, gives_take_keyword_iff hkind, gives_write_iff,
    gives_expect_keyword_iff]
  have hpast : ∀ u v : State, s.Translates [.keyword .REPEAT] "" u → u.Translates [] "do \x7b\n" v →
      v.remaining < depth := by
    intro u v hword hwrite
    exact Nat.lt_of_lt_of_le ((hword.trans hwrite).remaining_lt (by decide)) hs
  constructor
  · rintro ⟨_, u, hword, _, v, hwrite, _, w, hbody, _, x, huntil, _, y, hwrite', _, z, hcondition,
      hclose⟩
    have hall := hword.trans hwrite
    have hv := hpast u v hword hwrite
    rw [gives_statements_iff hstatement hv] at hbody
    obtain ⟨body, hbody, -, hstatements⟩ := hbody
    rw [hall.context_eq, hall.scope_eq] at hbody
    rw [hall.context_eq] at hstatements
    have hbefore := (hall.trans hstatements).trans (huntil.trans hwrite')
    have hy : y.remaining < depth :=
      Nat.lt_of_le_of_lt (hstatements.trans (huntil.trans hwrite')).remaining_le hv
    rw [gives_condition_iff hy, hbefore.context_eq] at hcondition
    obtain ⟨e, hcondition, hstops, htranslates⟩ := hcondition
    refine ⟨body, e, ⟨hbody, hcondition⟩, ?_, ?_⟩
    · rw [hclose.token_eq]
      exact hstops
    · simpa [Statement.spelling, Statement.text, String.append_assoc]
        using (hbefore.trans htranslates).trans hclose
  · rintro ⟨body, e, hfound, hstops, htranslates⟩
    rw [Statement.WellFormed] at hfound
    obtain ⟨hbody, hcondition⟩ := hfound
    obtain ⟨u, hword, v, hwrite, w, hstatements, x, huntil, y, hwrite', z, hexpr, _, hclose, rfl⟩ :=
      htranslates.cut
        [([.keyword .REPEAT], ""), ([], "do \x7b\n"), (bodySpelling body, bodyText s.context body),
          ([.keyword .UNTIL], ""), ([], "\x7d while (!("), (e.spelling, e.text s.context),
            ([], "));\n")]
        (by simp [Statement.spelling]) (by simp [Statement.text, String.append_assoc])
    have hall := hword.trans hwrite
    have hv := hpast u v hword hwrite
    have hbefore := (hall.trans hstatements).trans (huntil.trans hwrite')
    have hstatements' := hstatements
    rw [← hall.context_eq, ← hall.scope_eq] at hbody
    rw [← hall.context_eq] at hstatements'
    have hy : y.remaining < depth :=
      Nat.lt_of_le_of_lt (hstatements.trans (huntil.trans hwrite')).remaining_le hv
    refine ⟨(), u, hword, (), v, hwrite, (), w, ?_, (), x, huntil, (), y, hwrite', (), z, ?_,
      hclose⟩
    · rw [gives_statements_iff hstatement hv]
      exact ⟨body, hbody, by rw [huntil.token_kind]; rfl, hstatements'⟩
    · rw [gives_condition_iff hy, hbefore.context_eq]
      refine ⟨e, hcondition, ?_, hexpr⟩
      rw [← hclose.token_eq]
      exact hstops

/-- The `ELSIF` branches of a choice. -/
theorem rounds_branches_iff
    (hs : s.remaining < depth) (hends : endsSequence s.token.kind = true) :
    Rounds depth (accept (.keyword .ELSIF)) (do write "\x7d else if ("; guarded .THEN) s t ↔
      ∃ others,
        BranchesWellFormed s.context s.scope.result others ∧
        endsSequence t.token.kind = true ∧ t.token.kind ≠ .keyword .ELSIF ∧
        s.Translates (branchesSpelling others) (branchesText s.context others) t := by
  constructor
  · intro hrounds
    induction hrounds with
    | @last s t hmore =>
      rw [gives_accept_keyword_iff] at hmore
      obtain ⟨-, hfalse⟩ | ⟨hkind, rfl, -⟩ := hmore
      · cases hfalse
      · refine ⟨[], by rw [BranchesWellFormed]; trivial, hends, hkind, ?_⟩
        rw [branchesSpelling, branchesText]
        exact .refl t
    | @again s t u v hmore hbody hrest ih =>
      rw [gives_accept_keyword_iff] at hmore
      obtain ⟨hword, -⟩ | ⟨-, -, hfalse⟩ := hmore
      · simp only [gives_bind, gives_write_iff] at hbody
        obtain ⟨_, w, hwrite, hguarded⟩ := hbody
        have hall := hword.trans hwrite
        have hw : w.remaining < depth := Nat.lt_of_le_of_lt hall.remaining_le hs
        rw [gives_guarded_iff hstatement hw .THEN (by decide), hall.context_eq, hall.scope_eq]
          at hguarded
        obtain ⟨e, body, hcondition, hbody, hclosing, htranslates⟩ := hguarded
        have hbranch := hall.trans htranslates
        obtain ⟨others, hothers, hends, hkind, hbehind⟩ :=
          ih (Nat.lt_of_le_of_lt hbranch.remaining_le hs) hclosing
        rw [hbranch.context_eq, hbranch.scope_eq] at hothers
        rw [hbranch.context_eq] at hbehind
        refine ⟨(e, body) :: others, ?_, hends, hkind, ?_⟩
        · rw [BranchesWellFormed]
          exact ⟨hcondition, hbody, hothers⟩
        · simpa [branchesSpelling, branchesText, String.append_assoc] using hbranch.trans hbehind
      · cases hfalse
  · rintro ⟨others, hothers, hclosing, hkind, htranslates⟩
    induction others generalizing s with
    | nil =>
      obtain rfl : t = s := by
        simpa [branchesSpelling, branchesText, State.translates_nil_iff] using htranslates
      refine .last ?_
      rw [gives_accept_keyword_iff]
      exact Or.inr ⟨hkind, rfl, rfl⟩
    | cons branch others ih =>
      obtain ⟨e, body⟩ := branch
      rw [BranchesWellFormed] at hothers
      obtain ⟨hcondition, hbody, hothers⟩ := hothers
      obtain ⟨u, hword, v, hwrite, w, hguarded, _, hbehind, rfl⟩ := htranslates.cut
        [([.keyword .ELSIF], ""), ([], "\x7d else if ("),
          (e.spelling ++ .keyword .THEN :: bodySpelling body,
            e.text s.context ++ ") \x7b\n" ++ bodyText s.context body),
          (branchesSpelling others, branchesText s.context others)]
        (by simp [branchesSpelling]) (by simp [branchesText, String.append_assoc])
      have hall := hword.trans hwrite
      have hbranch := hall.trans hguarded
      have hv : v.remaining < depth := Nat.lt_of_le_of_lt hall.remaining_le hs
      have hw : endsSequence w.token.kind = true := hbehind.endsSequence_of_branches hclosing
      refine .again (u := u) (v := w) ?_ ?_ ?_
      · rw [gives_accept_keyword_iff]
        exact Or.inl ⟨hword, rfl⟩
      · simp only [gives_bind, gives_write_iff]
        refine ⟨(), v, hwrite, ?_⟩
        rw [gives_guarded_iff hstatement hv .THEN (by decide), hall.context_eq, hall.scope_eq]
        exact ⟨e, body, hcondition, hbody, hw, hguarded⟩
      · rw [← hbranch.context_eq, ← hbranch.scope_eq] at hothers
        rw [← hbranch.context_eq] at hbehind
        exact ih (Nat.lt_of_le_of_lt hbranch.remaining_le hs) hw hothers hbehind

/-- The `ELSE` branch of a choice, if there is one, and its end. -/
theorem gives_choiceEnd_iff (hs : s.remaining < depth) (a : Unit) :
    choiceEnd.Gives depth s a t ↔
      ∃ otherwise,
        OtherwiseWellFormed s.context s.scope.result otherwise ∧
        s.Translates (otherwiseSpelling otherwise ++ [.keyword .END])
          (otherwiseText s.context otherwise ++ "\x7d\n") t := by
  rw [choiceEnd, gives_if_accept_keyword_iff]
  simp only [gives_bind, gives_write_iff, gives_expect_keyword_iff]
  constructor
  · rintro (⟨u, hword, _, v, hwrite, _, w, hbody, _, x, hend, hclose⟩ | ⟨-, _, u, hend, hclose⟩)
    · have hall := hword.trans hwrite
      have hv : v.remaining < depth := Nat.lt_of_le_of_lt hall.remaining_le hs
      rw [gives_statements_iff hstatement hv] at hbody
      obtain ⟨body, hbody, -, hstatements⟩ := hbody
      rw [hall.context_eq, hall.scope_eq] at hbody
      rw [hall.context_eq] at hstatements
      refine ⟨some body, hbody, ?_⟩
      simpa [otherwiseSpelling, otherwiseText, String.append_assoc]
        using (hall.trans hstatements).trans (hend.trans hclose)
    · refine ⟨none, trivial, ?_⟩
      simpa [otherwiseSpelling, otherwiseText] using hend.trans hclose
  · rintro ⟨otherwise, hotherwise, htranslates⟩
    cases otherwise with
    | none =>
      obtain ⟨u, hend, _, hclose, rfl⟩ := htranslates.cut
        [([.keyword .END], ""), ([], "\x7d\n")]
        (by simp [otherwiseSpelling]) (by simp [otherwiseText])
      refine Or.inr ⟨?_, (), u, hend, hclose⟩
      rw [hend.token_kind]
      decide
    | some body =>
      obtain ⟨u, hword, v, hwrite, w, hstatements, x, hend, _, hclose, rfl⟩ := htranslates.cut
        [([.keyword .ELSE], ""), ([], "\x7d else \x7b\n"),
          (bodySpelling body, bodyText s.context body),
          ([.keyword .END], ""), ([], "\x7d\n")]
        (by simp [otherwiseSpelling]) (by simp [otherwiseText, String.append_assoc])
      have hall := hword.trans hwrite
      have hv : v.remaining < depth := Nat.lt_of_le_of_lt hall.remaining_le hs
      rw [OtherwiseWellFormed, ← hall.context_eq, ← hall.scope_eq] at hotherwise
      rw [← hall.context_eq] at hstatements
      refine Or.inl ⟨u, hword, (), v, hwrite, (), w, ?_, (), x, hend, hclose⟩
      rw [gives_statements_iff hstatement hv]
      exact ⟨body, hotherwise, by rw [hend.token_kind]; rfl, hstatements⟩

theorem gives_ifStatement_iff
    (hs : s.remaining ≤ depth) (hkind : s.token.kind = .keyword .IF) (a : Unit) :
    ifStatement.Gives depth s a t ↔
      ∃ e body others otherwise, Spans (.choice e body others otherwise) s t := by
  simp only [ifStatement_eq, gives_bind, gives_take_keyword_iff hkind, gives_write_iff,
    gives_repeatWhile_iff branches_advance]
  have hpast : ∀ u v : State, s.Translates [.keyword .IF] "" u → u.Translates [] "if (" v →
      v.remaining < depth := by
    intro u v hword hwrite
    exact Nat.lt_of_lt_of_le ((hword.trans hwrite).remaining_lt (by decide)) hs
  constructor
  · rintro ⟨_, u, hword, _, v, hwrite, _, w, hguarded, _, x, hrounds, h⟩
    have hall := hword.trans hwrite
    have hv := hpast u v hword hwrite
    rw [gives_guarded_iff hstatement hv .THEN (by decide), hall.context_eq, hall.scope_eq]
      at hguarded
    obtain ⟨e, body, hcondition, hbody, hclosing, htranslates⟩ := hguarded
    have hfirst := hall.trans htranslates
    have hw : w.remaining < depth := Nat.lt_of_le_of_lt htranslates.remaining_le hv
    rw [rounds_branches_iff hstatement hw hclosing, hfirst.context_eq, hfirst.scope_eq] at hrounds
    obtain ⟨others, hothers, -, -, hbranches⟩ := hrounds
    have hsecond := hfirst.trans hbranches
    have hx : x.remaining < depth := Nat.lt_of_le_of_lt hbranches.remaining_le hw
    rw [gives_choiceEnd_iff hstatement hx, hsecond.context_eq, hsecond.scope_eq] at h
    obtain ⟨otherwise, hotherwise, hlast⟩ := h
    refine ⟨e, body, others, otherwise, ⟨hcondition, hbody, hothers, hotherwise⟩, trivial, ?_⟩
    simpa [Statement.spelling, Statement.text, String.append_assoc] using hsecond.trans hlast
  · rintro ⟨e, body, others, otherwise, hfound, -, htranslates⟩
    rw [Statement.WellFormed] at hfound
    obtain ⟨hcondition, hbody, hothers, hotherwise⟩ := hfound
    obtain ⟨u, hword, v, hwrite, w, hguarded, x, hbranches, _, hlast, rfl⟩ := htranslates.cut
      [([.keyword .IF], ""), ([], "if ("),
        (e.spelling ++ .keyword .THEN :: bodySpelling body,
          e.text s.context ++ ") \x7b\n" ++ bodyText s.context body),
        (branchesSpelling others, branchesText s.context others),
        (otherwiseSpelling otherwise ++ [.keyword .END],
          otherwiseText s.context otherwise ++ "\x7d\n")]
      (by simp [Statement.spelling]) (by simp [Statement.text, String.append_assoc])
    have hall := hword.trans hwrite
    have hfirst := hall.trans hguarded
    have hsecond := hfirst.trans hbranches
    have hv := hpast u v hword hwrite
    have hw : w.remaining < depth := Nat.lt_of_le_of_lt hguarded.remaining_le hv
    have hx : x.remaining < depth := Nat.lt_of_le_of_lt hbranches.remaining_le hw
    obtain ⟨hxkind, helsif⟩ := hlast.closes_of_otherwise
    have hwkind : endsSequence w.token.kind = true := hbranches.endsSequence_of_branches hxkind
    refine ⟨(), u, hword, (), v, hwrite, (), w, ?_, (), x, ?_, ?_⟩
    · rw [gives_guarded_iff hstatement hv .THEN (by decide), hall.context_eq, hall.scope_eq]
      exact ⟨e, body, hcondition, hbody, hwkind, hguarded⟩
    · rw [rounds_branches_iff hstatement hw hwkind, hfirst.context_eq, hfirst.scope_eq]
      exact ⟨others, hothers, hxkind, helsif, hbranches⟩
    · rw [gives_choiceEnd_iff hstatement hx, hsecond.context_eq, hsecond.scope_eq]
      exact ⟨otherwise, hotherwise, hlast⟩

end Structured

end Compilation
end Oberon
