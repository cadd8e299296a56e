import Oberon.Proofs.Grammar.Expression

/-!
# The grammar of statements

Statements as syntax trees, how they are spelled, when they are well formed, and how they are
written in C.

body      := {statement [;]} statement := designator := expression | designator := string |
designator ( [expression {, expression}] ) | designator | IF expression THEN body {ELSIF expression
THEN body} [ELSE body] END | WHILE expression DO body END | REPEAT body UNTIL expression | RETURN
[expression] | INC ( designator [, expression] ) | DEC ( designator [, expression] ) | ASSERT (
expression ) | BREAK | CONTINUE | nothing

**Bodies.**  A body is a list of statements, each of which tells whether a semicolon stands behind
it.  Nothing is a statement only in front of a semicolon, and a `RETURN` without a value stands in
front of a semicolon or last.

**String literals.**  A value that begins with a string literal is no value to assign: the literal
alone is copied.
-/

namespace Oberon
namespace Grammar

/-- Which way a variable is counted. -/
inductive Counter
  | increase | decrease
  deriving DecidableEq, Repr

/-- Where a loop goes on: behind it, or with its next turn. -/
inductive Jump
  | behind | next
  deriving DecidableEq, Repr

inductive Statement
  | assignment (target : Designator) (value : Expression)
  | copy (target : Designator) (literal : String)
  | call (target : Designator) (arguments : List Expression)
  | bareCall (target : Designator)
  | choice (condition : Expression) (body : List (Statement × Bool))
      (others : List (Expression × List (Statement × Bool)))
      (otherwise : Option (List (Statement × Bool)))
  | loopWhile (condition : Expression) (body : List (Statement × Bool))
  | loopUntil (body : List (Statement × Bool)) (condition : Expression)
  | result (value : Option Expression)
  | count (counter : Counter) (target : Designator) (step : Option Expression)
  | assertion (condition : Expression)
  | jump (jump : Jump)
  | empty

/-- Statements, each with or without a semicolon behind it. -/
abbrev Body := List (Statement × Bool)

/-! ### Spelling -/

def Counter.keyword : Counter → Keyword
  | increase => .INC
  | decrease => .DEC

def Jump.keyword : Jump → Keyword
  | behind => .BREAK
  | next => .CONTINUE

/-- A step behind a counted variable. -/
def stepSpelling : Option Expression → List Word
  | none => []
  | some step => .sign .comma :: step.spelling

/-- A semicolon, if there is one. -/
def semicolonSpelling (semicolon : Bool) : List Word :=
  if semicolon then [.sign .semicolon] else []

mutual

def Statement.spelling : Statement → List Word
  | .assignment target value => target.spelling ++ .sign .assign :: value.spelling
  | .copy target literal => target.spelling ++ [Word.sign .assign, (.stringLiteral, literal)]
  | .call target arguments =>
      target.spelling ++ .sign .openParen :: argumentsSpelling arguments ++ [.sign .closeParen]
  | .bareCall target => target.spelling
  | .choice condition body others otherwise =>
      .keyword .IF :: condition.spelling ++ .keyword .THEN :: bodySpelling body
        ++ branchesSpelling others ++ otherwiseSpelling otherwise ++ [.keyword .END]
  | .loopWhile condition body =>
      .keyword .WHILE :: condition.spelling ++ .keyword .DO :: bodySpelling body ++ [.keyword .END]
  | .loopUntil body condition =>
      .keyword .REPEAT :: bodySpelling body ++ .keyword .UNTIL :: condition.spelling
  | .result none => [.keyword .RETURN]
  | .result (some value) => .keyword .RETURN :: value.spelling
  | .count counter target step =>
      .keyword counter.keyword :: .sign .openParen :: target.spelling ++ stepSpelling step
        ++ [.sign .closeParen]
  | .assertion condition =>
      .keyword .ASSERT :: .sign .openParen :: condition.spelling ++ [.sign .closeParen]
  | .jump jump => [.keyword jump.keyword]
  | .empty => []

def bodySpelling : List (Statement × Bool) → List Word
  | [] => []
  | (statement, semicolon) :: others =>
      statement.spelling ++ semicolonSpelling semicolon ++ bodySpelling others

/-- The `ELSIF` branches of a choice. -/
def branchesSpelling : List (Expression × List (Statement × Bool)) → List Word
  | [] => []
  | (condition, body) :: others =>
      .keyword .ELSIF :: condition.spelling ++ .keyword .THEN :: bodySpelling body
        ++ branchesSpelling others

/-- The `ELSE` branch of a choice. -/
def otherwiseSpelling : Option (List (Statement × Bool)) → List Word
  | none => []
  | some body => .keyword .ELSE :: bodySpelling body

end

/-! ### Well-formed statements -/

/-- The expression can serve as a condition. -/
def Expression.IsCondition (c : Context) (e : Expression) : Prop :=
  ∃ type, e.type? c = some type ∧ c.types.compatible type .boolean = true

/-- The expression begins with a string literal. -/
def Expression.OpensWithString (e : Expression) : Prop :=
  ∃ literal words, e.spelling = (.stringLiteral, literal) :: words

/-- The statement may stand without a semicolon in front of others. -/
def Statement.Joins (others : Body) : Statement → Prop
  | .empty => False
  | .result none => others = []
  | _ => True

mutual

/-- The conditions on a statement where procedures return values of type `result`. -/
def Statement.WellFormed (c : Context) (result : DataType) : Statement → Prop
  | .assignment target value =>
      ∃ d type,
        target.value? c = some d ∧ d.assignable = true ∧ value.type? c = some type ∧
        c.types.compatible d.type type = true ∧ ¬ value.OpensWithString
  | .copy target _ =>
      ∃ d,
        target.value? c = some d ∧ d.assignable = true ∧
        (d.type = .unknown ∨ c.types.form d.type = .array)
  | .call target arguments =>
      ∃ d types,
        target.value? c = some d ∧ argumentTypes? c arguments = some types ∧
        suits c d.parameters types = true
  | .bareCall target => ∃ d, target.value? c = some d ∧ suits c d.parameters [] = true
  | .choice condition body others otherwise =>
      condition.IsCondition c ∧ BodyWellFormed c result body ∧
      BranchesWellFormed c result others ∧ OtherwiseWellFormed c result otherwise
  | .loopWhile condition body => condition.IsCondition c ∧ BodyWellFormed c result body
  | .loopUntil body condition => BodyWellFormed c result body ∧ condition.IsCondition c
  | .result none => True
  | .result (some value) =>
      ∃ type, value.type? c = some type ∧ c.types.compatible result type = true
  | .count _ target step =>
      ∃ d,
        target.value? c = some d ∧ d.assignable = true ∧
        ∀ e ∈ step, ∃ type, e.type? c = some type ∧ c.types.compatible d.type type = true
  | .assertion condition => condition.IsCondition c
  | .jump _ => True
  | .empty => True

def BodyWellFormed (c : Context) (result : DataType) : List (Statement × Bool) → Prop
  | [] => True
  | (statement, semicolon) :: others =>
      statement.WellFormed c result ∧ (semicolon = true ∨ statement.Joins others) ∧
      BodyWellFormed c result others

def BranchesWellFormed (c : Context) (result : DataType) :
    List (Expression × List (Statement × Bool)) → Prop
  | [] => True
  | (condition, body) :: others =>
      condition.IsCondition c ∧ BodyWellFormed c result body ∧ BranchesWellFormed c result others

def OtherwiseWellFormed (c : Context) (result : DataType) : Option (List (Statement × Bool)) → Prop
  | none => True
  | some body => BodyWellFormed c result body

end

/-! ### Text -/

/-- What is written to count by one. -/
def Counter.byOne : Counter → String
  | increase => "++"
  | decrease => "--"

/-- What is written in front of a step. -/
def Counter.byStep : Counter → String
  | increase => " += "
  | decrease => " -= "

def Counter.text (c : Context) (counter : Counter) : Option Expression → String
  | none => counter.byOne
  | some step => counter.byStep ++ step.text c

def Jump.text : Jump → String
  | behind => "break;\n"
  | next => "continue;\n"

mutual

def Statement.text (c : Context) : Statement → String
  | .assignment target value => target.text c ++ " = " ++ value.text c ++ ";\n"
  | .copy target literal => "strcpy(" ++ target.text c ++ ", " ++ literal ++ ");\n"
  | .call target arguments => target.text c ++ "(" ++ argumentsText c arguments ++ ");\n"
  | .bareCall target => target.text c ++ "();\n"
  | .choice condition body others otherwise =>
      "if (" ++ condition.text c ++ ") \x7b\n" ++ bodyText c body ++ branchesText c others
        ++ otherwiseText c otherwise ++ "\x7d\n"
  | .loopWhile condition body =>
      "while (" ++ condition.text c ++ ") \x7b\n" ++ bodyText c body ++ "\x7d\n"
  | .loopUntil body condition =>
      "do \x7b\n" ++ bodyText c body ++ "\x7d while (!(" ++ condition.text c ++ "));\n"
  | .result none => "return;\n"
  | .result (some value) => "return " ++ value.text c ++ ";\n"
  | .count counter target step => target.text c ++ counter.text c step ++ ";\n"
  | .assertion condition => "if (!(" ++ condition.text c ++ ")) abort();\n"
  | .jump jump => jump.text
  | .empty => ""

def bodyText (c : Context) : List (Statement × Bool) → String
  | [] => ""
  | (statement, _) :: others => statement.text c ++ bodyText c others

def branchesText (c : Context) : List (Expression × List (Statement × Bool)) → String
  | [] => ""
  | (condition, body) :: others =>
      "\x7d else if (" ++ condition.text c ++ ") \x7b\n" ++ bodyText c body ++ branchesText c others

def otherwiseText (c : Context) : Option (List (Statement × Bool)) → String
  | none => ""
  | some body => "\x7d else \x7b\n" ++ bodyText c body

end

/-! ### Where a statement begins and ends -/

/-- The kinds of tokens that a statement begins with, the semicolon behind an empty one included. -/
def opensStatement : Token.Kind → Bool
  | .identifier => true
  | .keyword .IF => true
  | .keyword .WHILE => true
  | .keyword .REPEAT => true
  | .keyword .RETURN => true
  | .keyword .INC => true
  | .keyword .DEC => true
  | .keyword .ASSERT => true
  | .keyword .BREAK => true
  | .keyword .CONTINUE => true
  | .sign .semicolon => true
  | _ => false

/-- A token of the kind behind the statement does not continue it. -/
def Statement.StopsBefore : Statement → Token.Kind → Prop
  | .assignment _ value, kind => value.StopsBefore kind
  | .bareCall _, kind =>
      kind ≠ .sign .openBracket ∧ kind ≠ .sign .openParen ∧ kind ≠ .sign .assign
  | .loopUntil _ condition, kind => condition.StopsBefore kind
  | .result none, kind => Compilation.endsSequence kind = true ∨ kind = .sign .semicolon
  | .result (some value), kind => value.StopsBefore kind
  | .empty, kind => kind = .sign .semicolon
  | _, _ => True

theorem endsExpression_of_opensStatement
    {kind : Token.Kind} (h : opensStatement kind = true) :
    EndsExpression kind ∧ kind ≠ .sign .assign := by
  unfold opensStatement at h
  split at h
  all_goals first | decide | cases h

theorem endsExpression_of_endsSequence
    {kind : Token.Kind} (h : Compilation.endsSequence kind = true) :
    EndsExpression kind ∧ kind ≠ .sign .assign := by
  unfold Compilation.endsSequence at h
  split at h
  all_goals first | decide | cases h

theorem endsSequence_of_opensStatement
    {kind : Token.Kind} (h : opensStatement kind = true) :
    Compilation.endsSequence kind = false := by
  unfold opensStatement at h
  split at h
  all_goals first | rfl | cases h

/-- What begins an expression neither ends a body nor separates statements. -/
theorem goesOn_of_opensExpression
    {kind : Token.Kind} (h : opensExpression kind = true) :
    Compilation.endsSequence kind = false ∧ kind ≠ .sign .semicolon := by
  constructor
  · by_contra hends
    rw [Bool.not_eq_false] at hends
    unfold Compilation.endsSequence at hends
    split at hends
    all_goals first | cases h | cases hends
  · rintro rfl
    cases h

/--
A token that continues no expression and is no assignment sign stands behind any statement but an
empty one and a `RETURN` without a value.
-/
theorem Statement.stopsBefore_of_joins
    {others : Body}
    {kind : Token.Kind}
    (hends : EndsExpression kind)
    (hassign : kind ≠ .sign .assign)
    (hlast : others = [] → Compilation.endsSequence kind = true) :
    ∀ statement : Statement, statement.Joins others → statement.StopsBefore kind
  | .assignment _ value, _ => value.stopsBefore_of_ends hends
  | .copy _ _, _ => trivial
  | .call _ _, _ => trivial
  | .bareCall _, _ => ⟨hends.2.1, hends.2.2, hassign⟩
  | .choice _ _ _ _, _ => trivial
  | .loopWhile _ _, _ => trivial
  | .loopUntil _ condition, _ => condition.stopsBefore_of_ends hends
  | .result none, hjoins => Or.inl (hlast hjoins)
  | .result (some value), _ => value.stopsBefore_of_ends hends
  | .count _ _ _, _ => trivial
  | .assertion _, _ => trivial
  | .jump _, _ => trivial
  | .empty, hjoins => hjoins.elim

/-- A semicolon stands behind any statement. -/
theorem Statement.stopsBefore_semicolon :
    ∀ statement : Statement, statement.StopsBefore (.sign .semicolon)
  | .assignment _ value => value.stopsBefore_of_ends (by decide)
  | .copy _ _ => trivial
  | .call _ _ => trivial
  | .bareCall _ => ⟨by decide, by decide, by decide⟩
  | .choice _ _ _ _ => trivial
  | .loopWhile _ _ => trivial
  | .loopUntil _ condition => condition.stopsBefore_of_ends (by decide)
  | .result none => Or.inr rfl
  | .result (some value) => value.stopsBefore_of_ends (by decide)
  | .count _ _ _ => trivial
  | .assertion _ => trivial
  | .jump _ => trivial
  | .empty => rfl

/-- Without a semicolon behind it a statement joins what follows. -/
theorem Statement.joins_of_stopsBefore
    {others : Body} {kind : Token.Kind} (hkind : kind ≠ .sign .semicolon)
    (hothers : Compilation.endsSequence kind = true → others = []) :
    ∀ statement : Statement, statement.StopsBefore kind → statement.Joins others
  | .result none, hstops => hothers (hstops.resolve_right hkind)
  | .empty, hstops => hkind hstops
  | .assignment _ _, _ => trivial
  | .copy _ _, _ => trivial
  | .call _ _, _ => trivial
  | .bareCall _, _ => trivial
  | .choice _ _ _ _, _ => trivial
  | .loopWhile _ _, _ => trivial
  | .loopUntil _ _, _ => trivial
  | .result (some _), _ => trivial
  | .count _ _ _, _ => trivial
  | .assertion _, _ => trivial
  | .jump _, _ => trivial

theorem Statement.spelling_eq_cons (statement : Statement) (h : statement ≠ .empty) :
    ∃ word words,
      statement.spelling = word :: words ∧ opensStatement word.1 = true ∧
      word.1 ≠ .sign .semicolon := by
  have hdesignator : ∀ (target : Designator) (behind : List Word),
      ∃ word words,
        target.spelling ++ behind = word :: words ∧ opensStatement word.1 = true ∧
        word.1 ≠ .sign .semicolon := by
    intro target behind
    obtain ⟨name, words, hspelling⟩ := target.spelling_eq_cons
    exact ⟨_, _, by rw [hspelling, List.cons_append], rfl, by simp [Word.identifier]⟩
  cases statement with
  | assignment target value =>
    rw [Statement.spelling]
    exact hdesignator target _
  | copy target literal =>
    rw [Statement.spelling]
    exact hdesignator target _
  | call target arguments =>
    rw [Statement.spelling, List.append_assoc]
    exact hdesignator target _
  | bareCall target =>
    rw [Statement.spelling, ← List.append_nil target.spelling]
    exact hdesignator target _
  | choice condition body others otherwise =>
    exact ⟨_, _, by rw [Statement.spelling]; rfl, rfl, by decide⟩
  | loopWhile condition body => exact ⟨_, _, by rw [Statement.spelling]; rfl, rfl, by decide⟩
  | loopUntil body condition => exact ⟨_, _, by rw [Statement.spelling]; rfl, rfl, by decide⟩
  | result value =>
    cases value with
    | none => exact ⟨_, _, by rw [Statement.spelling], rfl, by decide⟩
    | some value => exact ⟨_, _, by rw [Statement.spelling], rfl, by decide⟩
  | count counter target step =>
    refine ⟨_, _, by rw [Statement.spelling]; rfl, ?_⟩
    cases counter <;> decide
  | assertion condition => exact ⟨_, _, by rw [Statement.spelling]; rfl, rfl, by decide⟩
  | jump jump =>
    refine ⟨_, _, by rw [Statement.spelling], ?_⟩
    cases jump <;> decide
  | empty => exact absurd rfl h

/-- A body that is not empty begins like a statement. -/
theorem bodySpelling_eq_cons
    {c : Context}
    {result : DataType}
    {statement : Statement}
    {semicolon : Bool}
    {others : Body}
    (h : BodyWellFormed c result ((statement, semicolon) :: others)) :
    ∃ word words,
      bodySpelling ((statement, semicolon) :: others) = word :: words ∧
      opensStatement word.1 = true := by
  rw [BodyWellFormed] at h
  obtain ⟨-, hjoins, -⟩ := h
  rw [bodySpelling]
  by_cases hempty : statement = .empty
  · subst hempty
    obtain rfl | hjoins := hjoins
    · exact ⟨.sign .semicolon, _, by rw [Statement.spelling]; rfl, rfl⟩
    · exact hjoins.elim
  · obtain ⟨word, words, hspelling, hopens, -⟩ := statement.spelling_eq_cons hempty
    exact ⟨word, _, by rw [hspelling]; rfl, hopens⟩

end Grammar
end Oberon
