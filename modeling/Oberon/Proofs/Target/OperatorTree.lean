import Oberon.Proofs.Target.LegibleState
import Oberon.Proofs.Target.Phrase
import Oberon.Proofs.Translation.Factor

/-!
# The operator trees of expressions

The operator tree of an expression, once its chains are joined in some way: from left to right as
the grammar has it, or rank by rank as C has it.  The text is read with the lexemes of
`Target.Lexeme`, where the escapes of C in literals are left out.

**Main results.**
* `Expression.read_text`: C reads the text of an expression as the tree that is joined rank by rank.
* `Expression.tree_eq_iff`: both trees are the same exactly for the faithful expressions, those
  without a product behind an `&` in a term and without a sum behind an `OR` in a simple expression.
-/

namespace Oberon
namespace Grammar

open Oberon.Target

/-! ### Trees -/

/-- A sign in front of a tree; a plus leaves it alone. -/
def Polarity.tree (tree : Tree) : Option Polarity → Tree
  | some .minus => .unary .minus tree
  | _ => tree

/-- A built-in function as C has it; the absolute value depends on the type of the argument. -/
def Function.tree (argument : Option DataType) (tree : Tree) : Function → Tree
  | abs => .callWith (.leaf (if argument.any DataType.isReal then "fabs" else "abs")) [tree]
  | odd => .binary .bitAnd tree (.leaf "1")
  | ord => .unary (.cast "int") tree
  | chr => .unary (.cast "char") tree
  | floor => .unary (.cast "long") (.callWith (.leaf "floor") [tree])

section Trees

variable (join : Tree → Links → Tree) (c : Context)

mutual

/-- The operator tree of an expression, with its chains joined by `join`. -/
def Expression.tree : Expression → Tree
  | .simple side => side.tree
  | .relation left op right => .binary (Lexeme.ofOperator op.1) left.tree right.tree

def Simple.tree : Simple → Tree
  | .chain sign first others => join (Polarity.tree first.tree sign) (termLinks others)

def termLinks : List (Operator.At .sum × Term) → Links
  | [] => []
  | (op, term) :: others => (Lexeme.ofOperator op.1, term.tree) :: termLinks others

def Term.tree : Term → Tree
  | .chain first others => join first.tree (factorLinks others)

def factorLinks : List (Operator.At .product × Factor) → Links
  | [] => []
  | (op, factor) :: others => (Lexeme.ofOperator op.1, factor.tree) :: factorLinks others

def Factor.tree : Factor → Tree
  | .literal l => .leaf l.lexeme
  | .group inner => inner.tree
  | .negation operand => .unary .not operand.tree
  | .function f argument => f.tree (argument.type? c) argument.tree
  | .shift value amount =>
    .callWith (.leaf (Target.shiftMacro c.moduleName)) [value.tree, amount.tree]
  | .reference target => target.tree
  | .call target arguments => target.tree.callWith (argumentTrees arguments)

def Designator.tree : Designator → Tree
  | .mk name indices => itemTree (.leaf (Target.mangle (c.owner name) name.own)) indices

/-- An element behind its indices. -/
def itemTree (array : Tree) : List Expression → Tree
  | [] => array
  | index :: others => itemTree (.item array index.tree) others

def argumentTrees : List Expression → List Tree
  | [] => []
  | argument :: others => argument.tree :: argumentTrees others

end

end Trees

/-! ### How the text is read -/

theorem Function.readAs
    {text : String}
    {tree : Tree}
    (argument : Option DataType)
    (h : ReadAsExpression text tree)
    (f : Function) :
    ReadAsPrimary (f.text argument text) (f.tree argument tree) := by
  have hcall : ∀ name : String, Lexeme.IsWord name.toList → name ∉ typeNames →
      ReadAsPrimary (name ++ "(" ++ text ++ ")") (.callWith (.leaf name) [tree]) :=
    fun name hword htype => (ReadAsPrimary.ofWord hword htype).call (.one h)
  have hgroup := ReadAsPrimary.group h
  cases f with
  | abs =>
    rw [Function.text, Function.tree]
    split
    · exact hcall "fabs" (by decide) (by decide)
    · exact hcall "abs" (by decide) (by decide)
  | odd =>
    have hone : ReadAsLinks (" & " ++ "1" ++ "") [(.bitAnd, .leaf "1")] :=
      .cons readAsBinary_bitAnd (ReadAsPrimary.ofWord (by decide) (by decide)).operand .nil
    have hodd := ReadAsPrimary.group (ReadAsExpression.chain hgroup.operand hone)
    rw [Tree.joinByRank_single] at hodd
    have htext : Function.text argument text .odd =
        "(" ++ ("(" ++ text ++ ")" ++ (" & " ++ "1" ++ "")) ++ ")" := by
      rw [← String.toList_inj]
      simp [Function.text]
    rw [htext]
    exact hodd
  | ord =>
    have hcast := ReadAsOperand.cast "int" (by decide) (by decide) hgroup.operand
    have htext : Function.text argument text .ord =
        "(" ++ ("(" ++ "int" ++ ")" ++ ("(" ++ text ++ ")")) ++ ")" := by
      rw [← String.toList_inj]
      simp [Function.text]
    rw [htext]
    exact .group (.single hcast)
  | chr =>
    have hcast := ReadAsOperand.cast "char" (by decide) (by decide) hgroup.operand
    have htext : Function.text argument text .chr =
        "(" ++ ("(" ++ "char" ++ ")" ++ ("(" ++ text ++ ")")) ++ ")" := by
      rw [← String.toList_inj]
      simp [Function.text]
    rw [htext]
    exact .group (.single hcast)
  | floor =>
    have hfloor := hcall "floor" (by decide) (by decide)
    have hcast := ReadAsOperand.cast "long" (by decide) (by decide) hfloor.operand
    have htext : Function.text argument text .floor =
        "(" ++ ("(" ++ "long" ++ ")" ++ ("floor" ++ "(" ++ text ++ ")")) ++ ")" := by
      rw [← String.toList_inj]
      simp [Function.text]
    rw [htext]
    exact .group (.single hcast)

theorem Name.readAs
    {c : Context}
    (hc : c.Legible)
    (name : Name)
    (h : ∀ word ∈ name.spelling, word.Legible) :
    ReadAsPrimary (Target.mangle (c.owner name) name.own)
      (.leaf (Target.mangle (c.owner name) name.own)) :=
  .ofWord (name.isWord_text hc h).1 (name.isWord_text hc h).2

theorem Literal.readAs (l : Literal) (h : l.word.Legible) :
    ReadAsPrimary l.lexeme (.leaf l.lexeme) := by
  obtain ⟨kind, lexeme⟩ := l
  cases kind with
  | number numeral => exact .ofOperand (IsNumeral.isOperand h)
  | char => exact .ofOperand (Or.elim h IsNumeral.isOperand IsQuoted.isOperand)
  | string => exact .ofOperand (IsQuoted.isOperand h)

/-- A sign in front of a term. -/
theorem Term.readAs_signed
    {c : Context}
    {tree : Tree}
    (term : Term)
    (h : ReadAsPrimary (term.text c) tree)
    (sign : Option Polarity) :
    ReadAsOperand ((sign.map Polarity.text).getD "" ++ term.text c) (Polarity.tree tree sign) := by
  cases sign with
  | none => simpa [Polarity.tree] using h.operand
  | some polarity =>
    cases polarity with
    | plus => simpa [Polarity.tree, Polarity.text] using h.operand
    | minus =>
      obtain ⟨first, others⟩ := term
      rw [Term.text, String.append_assoc, String.append_assoc] at h ⊢
      exact h.operand.minus

theorem shiftMacro_readAs {c : Context} (hc : c.Legible) :
    ReadAsPrimary (Target.shiftMacro c.moduleName) (.leaf (Target.shiftMacro c.moduleName)) := by
  have hshift : Target.shiftMacro c.moduleName = c.moduleName ++ "_" ++ "ASH" := by
    rw [← String.toList_inj]
    simp [Target.shiftMacro]
  obtain ⟨hword, htype⟩ :=
    isWord_underscore hc.moduleName (show Alphanumeric "ASH".toList by simp [Alphanumeric])
  rw [hshift]
  exact .ofWord hword htype

section Read

variable {c : Context}

mutual

theorem Expression.readAs (hc : c.Legible) :
    ∀ e : Expression, (∀ word ∈ e.spelling, word.Legible) →
      ReadAsExpression (e.text c) (e.tree Tree.joinByRank c)
  | .simple side, h => by
    rw [Expression.spelling] at h
    rw [Expression.text, Expression.tree]
    exact .single (ReadAsPrimary.group (side.readAs hc h)).operand
  | .relation left op right, h => by
    rw [Expression.spelling] at h
    simp only [List.mem_append, List.mem_cons] at h
    have hleft := left.readAs hc fun word hword => h word (Or.inl hword)
    have hright := right.readAs hc fun word hword => h word (Or.inr (Or.inr hword))
    have hlinks : ReadAsLinks (op.1.text ++ ("(" ++ right.text c ++ ")") ++ "")
        [(Lexeme.ofOperator op.1, right.tree Tree.joinByRank c)] :=
      .cons (readAsBinary_operator op.1) (ReadAsPrimary.group hright).operand .nil
    have hchain := ReadAsExpression.chain (ReadAsPrimary.group hleft).operand hlinks
    rw [Tree.joinByRank_single] at hchain
    rw [Expression.text, Expression.tree]
    simpa [String.append_assoc] using hchain

theorem Simple.readAs (hc : c.Legible) :
    ∀ side : Simple, (∀ word ∈ side.spelling, word.Legible) →
      ReadAsExpression (side.text c) (side.tree Tree.joinByRank c)
  | .chain sign first others, h => by
    rw [Simple.spelling] at h
    simp only [List.mem_append] at h
    have hfirst := first.readAs hc fun word hword => h word (Or.inl (Or.inr hword))
    have hothers := termsReadAs hc others fun word hword => h word (Or.inr hword)
    rw [Simple.text, Simple.tree]
    exact .chain (first.readAs_signed hfirst sign) hothers

theorem termsReadAs (hc : c.Legible) :
    ∀ others : List (Operator.At .sum × Term), (∀ word ∈ termsSpelling others, word.Legible) →
      ReadAsLinks (termsText c others) (termLinks Tree.joinByRank c others)
  | [], _ => by
    rw [termsText, termLinks]
    exact .nil
  | (op, term) :: others, h => by
    rw [termsSpelling] at h
    simp only [List.mem_append, List.mem_cons] at h
    rw [termsText, termLinks]
    exact .cons (readAsBinary_operator op.1) (term.readAs hc
      fun word hword => h word (by simp [hword])).operand
      (termsReadAs hc others fun word hword => h word (by simp [hword]))

theorem Term.readAs (hc : c.Legible) :
    ∀ term : Term, (∀ word ∈ term.spelling, word.Legible) →
      ReadAsPrimary (term.text c) (term.tree Tree.joinByRank c)
  | .chain first others, h => by
    rw [Term.spelling] at h
    simp only [List.mem_append] at h
    have hfirst := first.readAs hc fun word hword => h word (Or.inl hword)
    have hothers := factorsReadAs hc others fun word hword => h word (Or.inr hword)
    rw [Term.text, Term.tree]
    simpa [String.append_assoc] using ReadAsPrimary.group (ReadAsExpression.chain hfirst hothers)

theorem factorsReadAs (hc : c.Legible) :
    ∀ others : List (Operator.At .product × Factor),
      (∀ word ∈ factorsSpelling others, word.Legible) →
      ReadAsLinks (factorsText c others) (factorLinks Tree.joinByRank c others)
  | [], _ => by
    rw [factorsText, factorLinks]
    exact .nil
  | (op, factor) :: others, h => by
    rw [factorsSpelling] at h
    simp only [List.mem_append, List.mem_cons] at h
    rw [factorsText, factorLinks]
    exact .cons (readAsBinary_operator op.1) (factor.readAs hc
      fun word hword => h word (by simp [hword]))
      (factorsReadAs hc others fun word hword => h word (by simp [hword]))

theorem Factor.readAs (hc : c.Legible) :
    ∀ factor : Factor, (∀ word ∈ factor.spelling, word.Legible) →
      ReadAsOperand (factor.text c) (factor.tree Tree.joinByRank c)
  | .literal l, h => by
    rw [Factor.text, Factor.tree]
    exact (l.readAs (h l.word (by simp [Factor.spelling]))).operand
  | .group inner, h => by
    rw [Factor.spelling] at h
    rw [Factor.text, Factor.tree]
    exact (ReadAsPrimary.group (inner.readAs hc fun word hword => h word (by simp [hword]))).operand
  | .negation operand, h => by
    rw [Factor.spelling] at h
    rw [Factor.text, Factor.tree]
    exact (operand.readAs hc fun word hword => h word (by simp [hword])).not
  | .function f argument, h => by
    rw [Factor.spelling] at h
    rw [Factor.text, Factor.tree]
    exact (f.readAs _ (argument.readAs hc fun word hword => h word (by simp [hword]))).operand
  | .shift value amount, h => by
    rw [Factor.spelling] at h
    have hvalue := value.readAs hc fun word hword => h word (by simp [hword])
    have hamount := amount.readAs hc fun word hword => h word (by simp [hword])
    rw [Factor.text, Factor.tree]
    simpa [String.append_assoc]
      using ((shiftMacro_readAs hc).call (.more hvalue (.one hamount))).operand
  | .reference target, h => by
    rw [Factor.spelling] at h
    rw [Factor.text, Factor.tree]
    exact (target.readAs hc h).operand
  | .call target arguments, h => by
    rw [Factor.spelling] at h
    have htarget := target.readAs hc fun word hword => h word (by simp [hword])
    have harguments := argumentsReadAs hc arguments fun word hword => h word (by simp [hword])
    rw [Factor.text, Factor.tree]
    cases arguments with
    | nil =>
      rw [argumentsText, argumentTrees]
      simpa [String.append_assoc] using htarget.bareCall.operand
    | cons argument others => exact (htarget.call (harguments (by simp))).operand

theorem Designator.readAs (hc : c.Legible) :
    ∀ target : Designator, (∀ word ∈ target.spelling, word.Legible) →
      ReadAsPrimary (target.text c) (target.tree Tree.joinByRank c)
  | .mk name indices, h => by
    rw [Designator.spelling] at h
    simp only [List.mem_append] at h
    rw [Designator.text, Designator.tree]
    exact indicesReadAs hc _ _ (name.readAs hc fun word hword => h word (Or.inl hword)) indices
      fun word hword => h word (Or.inr hword)

theorem indicesReadAs
    (hc : c.Legible)
    (text : String)
    (array : Tree)
    (harray : ReadAsPrimary text array) :
    ∀ indices : List Expression, (∀ word ∈ indicesSpelling indices, word.Legible) →
      ReadAsPrimary (text ++ indicesText c indices) (itemTree Tree.joinByRank c array indices)
  | [], _ => by
    rw [indicesText, itemTree]
    simpa using harray
  | index :: others, h => by
    rw [indicesSpelling] at h
    have hitem := harray.item (index.readAs hc fun word hword => h word (by simp [hword]))
    rw [indicesText, itemTree]
    simpa [String.append_assoc] using indicesReadAs hc _ _ hitem others fun word hword =>
      h word (by simp [hword])

theorem argumentsReadAs (hc : c.Legible) :
    ∀ arguments : List Expression, (∀ word ∈ argumentsSpelling arguments, word.Legible) →
      arguments ≠ [] →
      ReadAsArguments (argumentsText c arguments) (argumentTrees Tree.joinByRank c arguments)
  | [], _, hne => absurd rfl hne
  | [argument], h, _ => by
    rw [argumentsSpelling] at h
    rw [argumentsText, argumentTrees, argumentTrees]
    exact .one (argument.readAs hc h)
  | argument :: next :: others, h, _ => by
    rw [argumentsSpelling] at h
    · rw [argumentsText, argumentTrees]
      · exact .more (argument.readAs hc fun word hword => h word (by simp [hword]))
          (argumentsReadAs hc (next :: others)
            (fun word hword => h word (by simp [hword])) (by simp))
      · simp
    · simp

end

/-- C reads the text of an expression as its tree, joined rank by rank. -/
theorem Expression.read_text
    (hc : c.Legible) (e : Expression) (h : ∀ word ∈ e.spelling, word.Legible) :
    read (e.text c) = some (e.tree Tree.joinByRank c) :=
  (e.readAs hc h).read_eq

end Read

/-! ### Faithful expressions -/

/-- The operator joins conditions. -/
def isLogical : Operator → Bool
  | .and | .or => true
  | _ => false

/-- Behind a logical operator of the chain, all operators are logical. -/
def LogicalLast
    {level : Operator.Level} {α : Type} (others : List (Operator.At level × α)) : Prop :=
  others.Pairwise fun link later => isLogical link.1.1 = true → isLogical later.1.1 = true

mutual

/--
No product stands behind an `&` in a term of the expression, and no sum behind an `OR` in a simple
expression.
-/
def Expression.Faithful : Expression → Prop
  | .simple side => side.Faithful
  | .relation left _ right => left.Faithful ∧ right.Faithful

def Simple.Faithful : Simple → Prop
  | .chain _ first others => first.Faithful ∧ termsFaithful others ∧ LogicalLast others

def termsFaithful : List (Operator.At .sum × Term) → Prop
  | [] => True
  | (_, term) :: others => term.Faithful ∧ termsFaithful others

def Term.Faithful : Term → Prop
  | .chain first others => first.Faithful ∧ factorsFaithful others ∧ LogicalLast others

def factorsFaithful : List (Operator.At .product × Factor) → Prop
  | [] => True
  | (_, factor) :: others => factor.Faithful ∧ factorsFaithful others

def Factor.Faithful : Factor → Prop
  | .literal _ => True
  | .group inner => inner.Faithful
  | .negation operand => operand.Faithful
  | .function _ argument => argument.Faithful
  | .shift value amount => value.Faithful ∧ amount.Faithful
  | .reference target => target.Faithful
  | .call target arguments => target.Faithful ∧ allFaithful arguments

def Designator.Faithful : Designator → Prop
  | .mk _ indices => allFaithful indices

def allFaithful : List Expression → Prop
  | [] => True
  | e :: others => e.Faithful ∧ allFaithful others

end

theorem Polarity.tree_inj (a b : Tree) (sign : Option Polarity) :
    Polarity.tree a sign = Polarity.tree b sign ↔ a = b := by
  unfold Polarity.tree
  split
  · rw [Tree.unary.injEq]
    exact and_iff_right rfl
  · exact Iff.rfl

theorem Function.tree_inj (argument : Option DataType) (a b : Tree) (f : Function) :
    f.tree argument a = f.tree argument b ↔ a = b := by
  cases f <;> simp [Function.tree, Tree.callWith]

/--
A chain of operators of one level is joined alike in both ways exactly if its operands are alike and
the logical operators come last.
-/
theorem join_eq_iff
    {level : Operator.Level}
    {α : Type}
    {tight loose : Nat}
    (hlt : tight < loose)
    (hloose : loose < 7)
    (hranks : ∀ op : Operator.At level,
      (Lexeme.ofOperator op.1).rank = if isLogical op.1 then loose else tight)
    (f g : α → Tree)
    (others : List (Operator.At level × α))
    (a b : Tree) :
    Tree.joinByRank a (Tree.links f (others.map fun link => (Lexeme.ofOperator link.1.1, link.2))) =
      Tree.joinLeft b (Tree.links g (others.map fun link => (Lexeme.ofOperator link.1.1, link.2))) ↔
      a = b ∧ (∀ link ∈ others, f link.2 = g link.2) ∧ LogicalLast others := by
  have hrank : ∀ op : Operator.At level,
      (Lexeme.ofOperator op.1).rank = loose ↔ isLogical op.1 = true := by
    intro op
    rw [hranks]
    split
    · simp_all
    · simp_all
      omega
  rw [Tree.joinByRank_eq_joinLeft_iff hlt hloose]
  · simp only [List.forall_mem_map, List.map_map, List.pairwise_map, Function.comp_def, hrank,
      LogicalLast]
  · simp only [List.forall_mem_map]
    intro link _
    rw [hranks]
    split
    · exact Or.inr rfl
    · exact Or.inl rfl

theorem termLinks_eq
    (join : Tree → Links → Tree)
    (c : Context)
    (others : List (Operator.At .sum × Term)) :
    termLinks join c others =
      Tree.links (Term.tree join c)
        (others.map fun link => (Lexeme.ofOperator link.1.1, link.2)) := by
  induction others with
  | nil => rw [termLinks]; rfl
  | cons link others ih => rw [termLinks, ih]; rfl

theorem factorLinks_eq
    (join : Tree → Links → Tree)
    (c : Context)
    (others : List (Operator.At .product × Factor)) :
    factorLinks join c others =
      Tree.links (Factor.tree join c) (others.map fun link => (Lexeme.ofOperator link.1.1,
        link.2)) := by
  induction others with
  | nil => rw [factorLinks]; rfl
  | cons link others ih => rw [factorLinks, ih]; rfl

theorem rank_sum (op : Operator.At .sum) :
    (Lexeme.ofOperator op.1).rank = if isLogical op.1 then 6 else 1 := by
  obtain ⟨op, hlevel⟩ := op
  cases op <;> first | rfl | cases hlevel

theorem rank_product (op : Operator.At .product) :
    (Lexeme.ofOperator op.1).rank = if isLogical op.1 then 5 else 0 := by
  obtain ⟨op, hlevel⟩ := op
  cases op <;> first | rfl | cases hlevel

section Faithful

variable (c : Context)

mutual

theorem Expression.tree_eq_iff :
    ∀ e : Expression, e.tree Tree.joinByRank c = e.tree Tree.joinLeft c ↔ e.Faithful
  | .simple side => by
    rw [Expression.tree, Expression.tree, Expression.Faithful]
    exact side.tree_eq_iff
  | .relation left op right => by
    rw [Expression.tree, Expression.tree, Expression.Faithful, Tree.binary.injEq, left.tree_eq_iff,
      right.tree_eq_iff]
    exact and_iff_right rfl

theorem Simple.tree_eq_iff :
    ∀ side : Simple, side.tree Tree.joinByRank c = side.tree Tree.joinLeft c ↔ side.Faithful
  | .chain sign first others => by
    rw [Simple.tree, Simple.tree, Simple.Faithful, termLinks_eq, termLinks_eq,
      join_eq_iff (by decide) (by decide) rank_sum, Polarity.tree_inj, first.tree_eq_iff,
        terms_tree_eq_iff others]

theorem terms_tree_eq_iff :
    ∀ others : List (Operator.At .sum × Term),
      (∀ link ∈ others, link.2.tree Tree.joinByRank c = link.2.tree Tree.joinLeft c) ↔
        termsFaithful others
  | [] => by
    rw [termsFaithful]
    simp
  | (op, term) :: others => by
    rw [termsFaithful, List.forall_mem_cons, term.tree_eq_iff, terms_tree_eq_iff others]

theorem Term.tree_eq_iff :
    ∀ term : Term, term.tree Tree.joinByRank c = term.tree Tree.joinLeft c ↔ term.Faithful
  | .chain first others => by
    rw [Term.tree, Term.tree, Term.Faithful, factorLinks_eq, factorLinks_eq,
      join_eq_iff (by decide) (by decide) rank_product, first.tree_eq_iff,
        factors_tree_eq_iff others]

theorem factors_tree_eq_iff :
    ∀ others : List (Operator.At .product × Factor),
      (∀ link ∈ others, link.2.tree Tree.joinByRank c = link.2.tree Tree.joinLeft c) ↔
        factorsFaithful others
  | [] => by
    rw [factorsFaithful]
    simp
  | (op, factor) :: others => by
    rw [factorsFaithful, List.forall_mem_cons, factor.tree_eq_iff, factors_tree_eq_iff others]

theorem Factor.tree_eq_iff :
    ∀ factor : Factor, factor.tree Tree.joinByRank c = factor.tree Tree.joinLeft c ↔ factor.Faithful
  | .literal l => by
    rw [Factor.tree, Factor.tree, Factor.Faithful]
    simp
  | .group inner => by
    rw [Factor.tree, Factor.tree, Factor.Faithful]
    exact inner.tree_eq_iff
  | .negation operand => by
    rw [Factor.tree, Factor.tree, Factor.Faithful, Tree.unary.injEq, operand.tree_eq_iff]
    exact and_iff_right rfl
  | .function f argument => by
    rw [Factor.tree, Factor.tree, Factor.Faithful, f.tree_inj]
    exact argument.tree_eq_iff
  | .shift value amount => by
    rw [Factor.tree, Factor.tree, Factor.Faithful, Tree.callWith_inj, List.cons.injEq,
      List.cons.injEq, value.tree_eq_iff, amount.tree_eq_iff]
    simp
  | .reference target => by
    rw [Factor.tree, Factor.tree, Factor.Faithful]
    exact target.tree_eq_iff
  | .call target arguments => by
    rw [Factor.tree, Factor.tree, Factor.Faithful, Tree.callWith_inj, target.tree_eq_iff,
      arguments_tree_eq_iff arguments]

theorem Designator.tree_eq_iff :
    ∀ target : Designator,
      target.tree Tree.joinByRank c = target.tree Tree.joinLeft c ↔ target.Faithful
  | .mk name indices => by
    rw [Designator.tree, Designator.tree, Designator.Faithful, indices_tree_eq_iff indices]
    exact and_iff_right rfl

theorem indices_tree_eq_iff :
    ∀ (indices : List Expression) (a b : Tree),
      itemTree Tree.joinByRank c a indices = itemTree Tree.joinLeft c b indices ↔
        a = b ∧ allFaithful indices
  | [], a, b => by
    rw [itemTree, itemTree, allFaithful]
    simp
  | index :: others, a, b => by
    rw [itemTree, itemTree, allFaithful, indices_tree_eq_iff others, Tree.item.injEq,
      index.tree_eq_iff, and_assoc]

theorem arguments_tree_eq_iff :
    ∀ arguments : List Expression,
      argumentTrees Tree.joinByRank c arguments = argumentTrees Tree.joinLeft c arguments ↔
        allFaithful arguments
  | [] => by
    rw [argumentTrees, argumentTrees, allFaithful]
    simp
  | argument :: others => by
    rw [argumentTrees, argumentTrees, allFaithful, List.cons.injEq, argument.tree_eq_iff,
      arguments_tree_eq_iff others]

end

end Faithful

end Grammar

/-! ### Compiled expressions -/

namespace Compilation

open Oberon.Grammar Oberon.Target

/--
An expression accepted in a state that a compilation comes through is compiled to a text that C
reads rank by rank; C reads it as the operator tree of the source exactly if the expression is
faithful.
-/
theorem read_compiled_expression_iff
    {source header : String} {limits : Limits} {start s t : State} {type : DataType} (extra : Nat)
    (hstart : State.start source limits = .ok start)
    (hs : (wholeModule header).Reaches (start.remaining + 1) start s)
    (h : expression.run (Rule.run (s.remaining + 1 + extra)) s = .ok type t) :
    (∃ e : Expression, e.type? s.context = some type ∧ e.StopsBefore t.token.kind ∧
        s.Translates e.spelling (e.text s.context) t) ∧
      ∀ e : Expression, s.Translates e.spelling (e.text s.context) t →
        read (e.text s.context) = some (e.tree Tree.joinByRank s.context) ∧
          (read (e.text s.context) = some (e.tree Tree.joinLeft s.context) ↔ e.Faithful) := by
  have hlegible : s.Legible := .of_reaches hstart hs
  refine ⟨(recognizes_expressions (s.remaining + 1 + extra) s (by omega) type t).1 h, ?_⟩
  rintro e ⟨u, hpasses, -⟩
  have hread := e.read_text hlegible.context (hpasses.legible hlegible.token)
  refine ⟨hread, ?_⟩
  rw [hread, Option.some.injEq]
  exact e.tree_eq_iff s.context

/-- The expression `1 & 2 * 3`. -/
def productBehindAnd : Expression :=
  .simple (.chain none
    (.chain (digit "1") [(⟨.and, rfl⟩, digit "2"), (⟨.times, rfl⟩, digit "3")]) [])
where
  digit (lexeme : String) : Factor := .literal ⟨.number .integer, lexeme⟩

/-- The text of `1 & 2 * 3` is read with the product inside the conjunction. -/
theorem read_compiled_productBehindAnd :
    ∃ start t : State,
      State.start "1&2*3" {} = .ok start ∧
      (wholeModule "M.h").Reaches (start.remaining + 1) start start ∧
      expression.run (Rule.run (start.remaining + 1 + 0)) start = .ok .integer t ∧
      start.Translates productBehindAnd.spelling (productBehindAnd.text start.context) t ∧
      read (productBehindAnd.text start.context) ≠
        some (productBehindAnd.tree Tree.joinLeft start.context) := by
  have hchecked : (State.start "1&2*3" {}).toOption.any (fun start =>
      match expression.run (Rule.run (start.remaining + 1 + 0)) start with
      | .ok type t =>
        decide (type = .integer ∧
          start.Translates productBehindAnd.spelling (productBehindAnd.text start.context) t)
      | .error _ _ => false) = true := by
    decide +kernel
  obtain ⟨start, hstart, hchecked⟩ := (Option.any_eq_true _ _).1 hchecked
  rw [toOption_eq_some_iff] at hstart
  split at hchecked
  · rename_i type t hrun
    obtain ⟨rfl, htranslates⟩ := of_decide_eq_true hchecked
    have hreaches : (wholeModule "M.h").Reaches (start.remaining + 1) start start := .here _ _
    obtain ⟨-, hread⟩ := (read_compiled_expression_iff 0 hstart hreaches hrun).2 _ htranslates
    refine ⟨start, t, hstart, hreaches, hrun, htranslates, fun h => ?_⟩
    have hfaithful := hread.1 h
    simp [productBehindAnd, Expression.Faithful, Simple.Faithful, Term.Faithful, LogicalLast,
      isLogical] at hfaithful
  · cases hchecked

end Compilation
end Oberon
