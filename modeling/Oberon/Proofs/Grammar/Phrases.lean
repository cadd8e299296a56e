import Oberon.Proofs.Grammar.Statement

/-!
# The phrases of a body

The statements that stand anywhere in a body, and the factors of their expressions.

**Statements.**  `bodyStatements` has the statements of a body with those inside them: of a body
that is well formed each one is well formed (`BodyWellFormed.statement`).

**Factors.**  `Expression.factors` has the factors of an expression with those inside them, in
groups, indices and arguments.  Each factor of an expression with a type has a type
(`Expression.typed_of_mem_factors`), and so has each one that stands in a well-formed statement
(`Statement.WellFormed.typed`).
-/

namespace Oberon
namespace Grammar

/-! ### Statements inside statements -/

mutual

/-- The statement and those inside it. -/
def Statement.statements : Statement → List Statement
  | .choice condition body others otherwise =>
      .choice condition body others otherwise ::
        (bodyStatements body ++ branchesStatements others ++ otherwiseStatements otherwise)
  | .loopWhile condition body => .loopWhile condition body :: bodyStatements body
  | .loopUntil body condition => .loopUntil body condition :: bodyStatements body
  | statement => [statement]

/-- The statements of a body and those inside them. -/
def bodyStatements : List (Statement × Bool) → List Statement
  | [] => []
  | (statement, _) :: others => statement.statements ++ bodyStatements others

def branchesStatements : List (Expression × List (Statement × Bool)) → List Statement
  | [] => []
  | (_, body) :: others => bodyStatements body ++ branchesStatements others

def otherwiseStatements : Option (List (Statement × Bool)) → List Statement
  | none => []
  | some body => bodyStatements body

end

mutual

theorem Statement.WellFormed.inside {c : Context} {result : DataType} :
    ∀ statement : Statement, statement.WellFormed c result →
      ∀ inner ∈ statement.statements, inner.WellFormed c result
  | .choice condition body others otherwise, h, inner, hinner => by
    rw [Statement.statements, List.mem_cons, List.mem_append, List.mem_append] at hinner
    obtain rfl | (hinner | hinner) | hinner := hinner
    · exact h
    all_goals
      rw [Statement.WellFormed] at h
      obtain ⟨-, hbody, hothers, hotherwise⟩ := h
    · exact BodyWellFormed.statement body hbody inner hinner
    · exact BranchesWellFormed.statement others hothers inner hinner
    · exact OtherwiseWellFormed.statement otherwise hotherwise inner hinner
  | .loopWhile condition body, h, inner, hinner => by
    rw [Statement.statements, List.mem_cons] at hinner
    obtain rfl | hinner := hinner
    · exact h
    · rw [Statement.WellFormed] at h
      exact BodyWellFormed.statement body h.2 inner hinner
  | .loopUntil body condition, h, inner, hinner => by
    rw [Statement.statements, List.mem_cons] at hinner
    obtain rfl | hinner := hinner
    · exact h
    · rw [Statement.WellFormed] at h
      exact BodyWellFormed.statement body h.1 inner hinner
  | .assignment _ _, h, inner, hinner => List.mem_singleton.1 hinner ▸ h
  | .copy _ _, h, inner, hinner => List.mem_singleton.1 hinner ▸ h
  | .call _ _, h, inner, hinner => List.mem_singleton.1 hinner ▸ h
  | .bareCall _, h, inner, hinner => List.mem_singleton.1 hinner ▸ h
  | .result _, h, inner, hinner => List.mem_singleton.1 hinner ▸ h
  | .count _ _ _, h, inner, hinner => List.mem_singleton.1 hinner ▸ h
  | .assertion _, h, inner, hinner => List.mem_singleton.1 hinner ▸ h
  | .jump _, h, inner, hinner => List.mem_singleton.1 hinner ▸ h
  | .empty, h, inner, hinner => List.mem_singleton.1 hinner ▸ h

/-- The statements in a well-formed body are well formed. -/
theorem BodyWellFormed.statement {c : Context} {result : DataType} :
    ∀ body : List (Statement × Bool), BodyWellFormed c result body →
      ∀ inner ∈ bodyStatements body, inner.WellFormed c result
  | [], _, inner, hinner => by cases hinner
  | (statement, _) :: others, h, inner, hinner => by
    rw [BodyWellFormed] at h
    rw [bodyStatements, List.mem_append] at hinner
    obtain hinner | hinner := hinner
    · exact Statement.WellFormed.inside statement h.1 inner hinner
    · exact BodyWellFormed.statement others h.2.2 inner hinner

theorem BranchesWellFormed.statement {c : Context} {result : DataType} :
    ∀ others : List (Expression × List (Statement × Bool)), BranchesWellFormed c result others →
      ∀ inner ∈ branchesStatements others, inner.WellFormed c result
  | [], _, inner, hinner => by cases hinner
  | (_, body) :: others, h, inner, hinner => by
    rw [BranchesWellFormed] at h
    rw [branchesStatements, List.mem_append] at hinner
    obtain hinner | hinner := hinner
    · exact BodyWellFormed.statement body h.2.1 inner hinner
    · exact BranchesWellFormed.statement others h.2.2 inner hinner

theorem OtherwiseWellFormed.statement {c : Context} {result : DataType} :
    ∀ otherwise : Option (List (Statement × Bool)), OtherwiseWellFormed c result otherwise →
      ∀ inner ∈ otherwiseStatements otherwise, inner.WellFormed c result
  | none, _, inner, hinner => by cases hinner
  | some body, h, inner, hinner => by
    rw [OtherwiseWellFormed] at h
    exact BodyWellFormed.statement body h inner hinner

end

/-! ### Factors inside expressions -/

mutual

/-- The factors of an expression and those inside them. -/
def Expression.factors : Expression → List Factor
  | .simple side => side.factors
  | .relation left _ right => left.factors ++ right.factors

def Simple.factors : Simple → List Factor
  | .chain _ first others => first.factors ++ termsFactors others

def termsFactors : List (Operator.At .sum × Term) → List Factor
  | [] => []
  | (_, term) :: others => term.factors ++ termsFactors others

def Term.factors : Term → List Factor
  | .chain first others => first.factors ++ factorsFactors others

def factorsFactors : List (Operator.At .product × Factor) → List Factor
  | [] => []
  | (_, factor) :: others => factor.factors ++ factorsFactors others

/-- The factor and those inside it. -/
def Factor.factors : Factor → List Factor
  | .literal l => [.literal l]
  | .group inner => .group inner :: inner.factors
  | .negation operand => .negation operand :: operand.factors
  | .function f argument => .function f argument :: argument.factors
  | .shift value amount => .shift value amount :: (value.factors ++ amount.factors)
  | .reference target => .reference target :: target.factors
  | .call target arguments =>
    .call target arguments :: (target.factors ++ expressionsFactors arguments)

/-- The factors in the indices of a designator. -/
def Designator.factors : Designator → List Factor
  | .mk _ indices => expressionsFactors indices

def expressionsFactors : List Expression → List Factor
  | [] => []
  | e :: others => e.factors ++ expressionsFactors others

end

/-- The factor has a type. -/
def Factor.Typed (c : Context) (f : Factor) : Prop := ∃ type, f.type? c = some type

mutual

/-- The factors of an expression with a type have types. -/
theorem Expression.typed_of_mem_factors {c : Context} :
    ∀ (e : Expression) {type : DataType}, e.type? c = some type → ∀ f ∈ e.factors, f.Typed c
  | .simple side, _, h, f, hf => by
    rw [Expression.type?] at h
    rw [Expression.factors] at hf
    exact Simple.typed_of_mem_factors side h f hf
  | .relation left op right, _, h, f, hf => by
    obtain ⟨_, _, hleft, hright, -⟩ := (Expression.type?_relation_eq_some_iff ..).1 h
    rw [Expression.factors, List.mem_append] at hf
    obtain hf | hf := hf
    · exact Simple.typed_of_mem_factors left hleft f hf
    · exact Simple.typed_of_mem_factors right hright f hf

theorem Simple.typed_of_mem_factors {c : Context} :
    ∀ (side : Simple) {type : DataType}, side.type? c = some type → ∀ f ∈ side.factors, f.Typed c
  | .chain sign first others, _, h, f, hf => by
    obtain ⟨hfirst, hothers⟩ := (Simple.type?_eq_some_iff ..).1 h
    rw [Simple.factors, List.mem_append] at hf
    obtain hf | hf := hf
    · exact Term.typed_of_mem_factors first hfirst f hf
    · exact typed_of_mem_termsFactors others hothers f hf

theorem typed_of_mem_termsFactors {c : Context} :
    ∀ (others : List (Operator.At .sum × Term)) {type : DataType}, termsFit c type others = true →
      ∀ f ∈ termsFactors others, f.Typed c
  | [], _, _, f, hf => by cases hf
  | (_, term) :: others, _, h, f, hf => by
    rw [termsFit, Bool.and_eq_true, Option.any_eq_true] at h
    obtain ⟨⟨_, hterm, -⟩, hothers⟩ := h
    rw [termsFactors, List.mem_append] at hf
    obtain hf | hf := hf
    · exact Term.typed_of_mem_factors term hterm f hf
    · exact typed_of_mem_termsFactors others hothers f hf

theorem Term.typed_of_mem_factors {c : Context} :
    ∀ (term : Term) {type : DataType}, term.type? c = some type → ∀ f ∈ term.factors, f.Typed c
  | .chain first others, _, h, f, hf => by
    obtain ⟨hfirst, hothers⟩ := (Term.type?_eq_some_iff ..).1 h
    rw [Term.factors, List.mem_append] at hf
    obtain hf | hf := hf
    · exact Factor.typed_of_mem_factors first hfirst f hf
    · exact typed_of_mem_factorsFactors others hothers f hf

theorem typed_of_mem_factorsFactors {c : Context} :
    ∀ (others : List (Operator.At .product × Factor)) {type : DataType},
      factorsFit c type others = true → ∀ f ∈ factorsFactors others, f.Typed c
  | [], _, _, f, hf => by cases hf
  | (_, factor) :: others, _, h, f, hf => by
    rw [factorsFit, Bool.and_eq_true, Option.any_eq_true] at h
    obtain ⟨⟨_, hfactor, -⟩, hothers⟩ := h
    rw [factorsFactors, List.mem_append] at hf
    obtain hf | hf := hf
    · exact Factor.typed_of_mem_factors factor hfactor f hf
    · exact typed_of_mem_factorsFactors others hothers f hf

/-- The factors inside a factor with a type have types. -/
theorem Factor.typed_of_mem_factors {c : Context} :
    ∀ (factor : Factor) {type : DataType}, factor.type? c = some type →
      ∀ f ∈ factor.factors, f.Typed c
  | .literal l, type, h, f, hf => by
    rw [Factor.factors, List.mem_singleton] at hf
    exact ⟨type, hf ▸ h⟩
  | .group inner, type, h, f, hf => by
    rw [Factor.factors, List.mem_cons] at hf
    obtain rfl | hf := hf
    · exact ⟨type, h⟩
    · rw [Factor.type?] at h
      exact Expression.typed_of_mem_factors inner h f hf
  | .negation operand, type, h, f, hf => by
    rw [Factor.factors, List.mem_cons] at hf
    obtain rfl | hf := hf
    · exact ⟨type, h⟩
    · rw [Factor.type?] at h
      obtain ⟨_, hoperand, -⟩ := Option.bind_eq_some_iff.1 h
      exact Factor.typed_of_mem_factors operand hoperand f hf
  | .function function argument, type, h, f, hf => by
    rw [Factor.factors, List.mem_cons] at hf
    obtain rfl | hf := hf
    · exact ⟨type, h⟩
    · rw [Factor.type?] at h
      obtain ⟨_, hargument, -⟩ := Option.bind_eq_some_iff.1 h
      exact Expression.typed_of_mem_factors argument hargument f hf
  | .shift value amount, type, h, f, hf => by
    rw [Factor.factors, List.mem_cons, List.mem_append] at hf
    obtain rfl | hf := hf
    · exact ⟨type, h⟩
    · obtain ⟨_, hvalue, hamount, -⟩ := (Factor.type?_shift_eq_some_iff ..).1 h
      obtain hf | hf := hf
      · exact Expression.typed_of_mem_factors value hvalue f hf
      · exact Expression.typed_of_mem_factors amount hamount f hf
  | .reference target, type, h, f, hf => by
    rw [Factor.factors, List.mem_cons] at hf
    obtain rfl | hf := hf
    · exact ⟨type, h⟩
    · rw [Factor.type?] at h
      obtain ⟨_, htarget, -⟩ := Option.bind_eq_some_iff.1 h
      exact Designator.typed_of_mem_factors target htarget f hf
  | .call target arguments, type, h, f, hf => by
    rw [Factor.factors, List.mem_cons, List.mem_append] at hf
    obtain rfl | hf := hf
    · exact ⟨type, h⟩
    · rw [Factor.type?] at h
      obtain ⟨_, htarget, h⟩ := Option.bind_eq_some_iff.1 h
      obtain ⟨_, harguments, -⟩ := Option.bind_eq_some_iff.1 h
      obtain hf | hf := hf
      · exact Designator.typed_of_mem_factors target htarget f hf
      · exact typed_of_mem_argumentsFactors arguments harguments f hf

theorem Designator.typed_of_mem_factors {c : Context} :
    ∀ (target : Designator) {d : Compilation.Designator}, target.value? c = some d →
      ∀ f ∈ target.factors, f.Typed c
  | .mk name indices, _, h, f, hf => by
    rw [Designator.value?] at h
    obtain ⟨_, -, hindices⟩ := Option.bind_eq_some_iff.1 h
    rw [Designator.factors] at hf
    exact typed_of_mem_indicesFactors indices hindices f hf

theorem typed_of_mem_indicesFactors {c : Context} :
    ∀ (indices : List Expression) {value d : Compilation.Designator},
      indexed? c value indices = some d → ∀ f ∈ expressionsFactors indices, f.Typed c
  | [], _, _, _, f, hf => by cases hf
  | index :: others, _, _, h, f, hf => by
    rw [indexed?] at h
    obtain ⟨_, -, h⟩ := Option.bind_eq_some_iff.1 h
    obtain ⟨_, hindex, h⟩ := Option.bind_eq_some_iff.1 h
    rw [Option.ite_none_right_eq_some] at h
    rw [expressionsFactors, List.mem_append] at hf
    obtain hf | hf := hf
    · exact Expression.typed_of_mem_factors index hindex f hf
    · exact typed_of_mem_indicesFactors others h.2 f hf

theorem typed_of_mem_argumentsFactors {c : Context} :
    ∀ (arguments : List Expression) {types : List DataType},
      argumentTypes? c arguments = some types → ∀ f ∈ expressionsFactors arguments, f.Typed c
  | [], _, _, f, hf => by cases hf
  | argument :: others, _, h, f, hf => by
    rw [argumentTypes?] at h
    obtain ⟨_, hargument, h⟩ := Option.bind_eq_some_iff.1 h
    obtain ⟨_, hothers, -⟩ := Option.bind_eq_some_iff.1 h
    rw [expressionsFactors, List.mem_append] at hf
    obtain hf | hf := hf
    · exact Expression.typed_of_mem_factors argument hargument f hf
    · exact typed_of_mem_argumentsFactors others hothers f hf

end

/-! ### Factors inside statements -/

/--
The factors that stand in the expressions of a statement, those in statements inside it apart.
-/
def Statement.factors : Statement → List Factor
  | .assignment target value => target.factors ++ value.factors
  | .copy target _ => target.factors
  | .call target arguments => target.factors ++ expressionsFactors arguments
  | .bareCall target => target.factors
  | .choice condition _ others _ =>
    condition.factors ++ others.flatMap fun branch => branch.1.factors
  | .loopWhile condition _ => condition.factors
  | .loopUntil _ condition => condition.factors
  | .result value => value.toList.flatMap Expression.factors
  | .count _ target step => target.factors ++ step.toList.flatMap Expression.factors
  | .assertion condition => condition.factors
  | .jump _ => []
  | .empty => []

/-- The factors of a body. -/
def bodyFactors (body : Body) : List Factor := (bodyStatements body).flatMap Statement.factors

variable {c : Context} {result : DataType}

theorem Expression.IsCondition.typed {e : Expression} (h : e.IsCondition c) :
    ∀ f ∈ e.factors, f.Typed c := by
  obtain ⟨_, htype, -⟩ := h
  exact e.typed_of_mem_factors htype

theorem BranchesWellFormed.condition
    {others : List (Expression × Body)} (h : BranchesWellFormed c result others) :
    ∀ branch ∈ others, branch.1.IsCondition c := by
  induction others with
  | nil => simp
  | cons branch others ih =>
    obtain ⟨condition, body⟩ := branch
    rw [BranchesWellFormed] at h
    intro branch hbranch
    obtain rfl | hbranch := List.mem_cons.1 hbranch
    · exact h.1
    · exact ih h.2.2 branch hbranch

/-- The factors in a well-formed statement have types. -/
theorem Statement.WellFormed.typed {statement : Statement} (h : statement.WellFormed c result) :
    ∀ f ∈ statement.factors, f.Typed c := by
  intro f hf
  cases statement with
  | assignment target value =>
    rw [Statement.WellFormed] at h
    obtain ⟨_, _, htarget, -, hvalue, -⟩ := h
    obtain hf | hf := List.mem_append.1 hf
    · exact target.typed_of_mem_factors htarget f hf
    · exact value.typed_of_mem_factors hvalue f hf
  | copy target literal =>
    rw [Statement.WellFormed] at h
    obtain ⟨_, htarget, -⟩ := h
    exact target.typed_of_mem_factors htarget f hf
  | call target arguments =>
    rw [Statement.WellFormed] at h
    obtain ⟨_, _, htarget, harguments, -⟩ := h
    obtain hf | hf := List.mem_append.1 hf
    · exact target.typed_of_mem_factors htarget f hf
    · exact typed_of_mem_argumentsFactors arguments harguments f hf
  | bareCall target =>
    rw [Statement.WellFormed] at h
    obtain ⟨_, htarget, -⟩ := h
    exact target.typed_of_mem_factors htarget f hf
  | choice condition body others otherwise =>
    rw [Statement.WellFormed] at h
    obtain hf | hf := List.mem_append.1 hf
    · exact h.1.typed f hf
    · obtain ⟨branch, hbranch, hf⟩ := List.mem_flatMap.1 hf
      exact (h.2.2.1.condition branch hbranch).typed f hf
  | loopWhile condition body =>
    rw [Statement.WellFormed] at h
    exact h.1.typed f hf
  | loopUntil body condition =>
    rw [Statement.WellFormed] at h
    exact h.2.typed f hf
  | result value =>
    cases value with
    | none => cases hf
    | some value =>
      rw [Statement.WellFormed] at h
      obtain ⟨_, hvalue, -⟩ := h
      exact value.typed_of_mem_factors hvalue f (by simpa [Statement.factors] using hf)
  | count counter target step =>
    rw [Statement.WellFormed] at h
    obtain ⟨_, htarget, -, hstep⟩ := h
    obtain hf | hf := List.mem_append.1 hf
    · exact target.typed_of_mem_factors htarget f hf
    · obtain ⟨e, he, hf⟩ := List.mem_flatMap.1 hf
      obtain ⟨_, htype, -⟩ := hstep e (Option.mem_toList.1 he)
      exact e.typed_of_mem_factors htype f hf
  | assertion condition =>
    rw [Statement.WellFormed] at h
    exact h.typed f hf
  | jump jump => cases hf
  | empty => cases hf

/-- The factors in a well-formed body have types. -/
theorem BodyWellFormed.typed {body : Body} (h : BodyWellFormed c result body) :
    ∀ f ∈ bodyFactors body, f.Typed c := by
  intro f hf
  obtain ⟨statement, hstatement, hf⟩ := List.mem_flatMap.1 hf
  exact (BodyWellFormed.statement body h statement hstatement).typed f hf

end Grammar
end Oberon
