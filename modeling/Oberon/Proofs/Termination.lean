import Oberon.Proofs.Credit
import Oberon.Proofs.Safety
import Oberon.Proofs.Translation.Sequence

/-!
# Runs come to an end

A loop is allowed as many turns as there are tokens to come, and one more; rules may stand inside
each other as deep.  No run meets these bounds: every turn of a loop but the last takes a token, and
a rule takes one before it calls another rule.

**Costs.**  What each rule of the grammar costs is found from its parts.  Loops take a token in
every turn with another one behind it.  A rule takes a token before it calls another rule, and that
token pays for all that is not paid by later tokens.  Statements have to leave two credits for the
next statement and its turn; an empty one leaves them to the semicolon behind it.

**Main statements.**
* `compilation_proceeds`: a compilation comes to its end by itself, with at most fourteen turns and
  calls for each character.
* `exists_rejected_of_perform`: a compilation that fails has rejected its source.
-/

namespace Oberon
namespace Compilation

open Oberon.Compilation.Action

variable {α β : Type} {bound limit depth c : Nat} {s t : State}

set_option synthInstance.maxSize 4096

/-! ### Tokens -/

section Tokens

instance : Plain look := .ask _

instance : Plain take := .ask _

instance : Plain kind := by unfold kind; infer_instance

instance : Plain found := by unfold found; infer_instance

instance : Plain lexeme := by unfold lexeme; infer_instance

instance (wanted : Token.Kind) : Plain (sees wanted) := by unfold sees; infer_instance

instance (wanted : Token.Kind) : Plain (accept wanted) := by unfold accept; infer_instance

instance (wanted : Token.Kind) : Plain (expect wanted) := by unfold expect; infer_instance

instance : Plain identifier := by unfold identifier; infer_instance

theorem remaining_accept {wanted : Token.Kind} (hwanted : wanted ≠ .eof) (s u : State)
    (h : (accept wanted).Gives depth s true u) : u.remaining < s.remaining := by
  rw [gives_accept] at h
  obtain ⟨hkind, htake, -⟩ | ⟨-, -, hfalse⟩ := h
  · exact remaining_takeToken_lt htake (hkind ▸ hwanted)
  · cases hfalse

theorem remaining_identifier {name : String} (h : identifier.Gives depth s name t) :
    t.remaining < s.remaining := by
  rw [gives_identifier] at h
  obtain ⟨hkind, -, htake⟩ := h
  exact remaining_takeToken_lt htake (by simp [hkind])

theorem remaining_expect
    {wanted : Token.Kind}
    (hwanted : wanted ≠ .eof)
    {a : Unit}
    (h : (expect wanted).Gives depth s a t) :
    t.remaining < s.remaining := by
  rw [gives_expect] at h
  exact remaining_takeToken_lt h.2 (h.1 ▸ hwanted)

/-- What is done behind the kind of the current token is paid as if the kind were known before. -/
theorem AffordsAt.kind_bind
    {f : Token.Kind → Action α}
    {p : Nat}
    {q : α → Nat}
    (h : AffordsAt bound p q (f s.token.kind) s) :
    AffordsAt bound p q (kind >>= f) s := by
  refine Plain.affordsAt_same.bind fun k t hkind => ?_
  obtain ⟨rfl, rfl⟩ := (gives_kind k).1 hkind
  exact h

/-- A token that is not the end of the source pays for what follows it. -/
theorem Costs.behind_take
    {f : Unit → Action α}
    (hf : ∀ a, Costs bound bound (f a) c)
    (hkind : s.token.kind ≠ .eof)
    (hc : c + 2 ≤ 14)
    (hs : s.remaining < bound + 1) :
    AffordsAt bound 0 (fun _ => 2) (take >>= f) s := by
  have htakes : ∀ a t, take.Gives bound s a t → t.remaining < s.remaining := fun a t h =>
    remaining_takeToken_lt ((gives_take a).1 h) hkind
  exact Costs.behind (Plain.affordsAt (fun _ => true) fun a t h _ => htakes a t h) htakes hf hc hs

end Tokens

/-! ### Text, symbols and types -/

section Requests

instance (text : String) : Plain (write text) := .ask _

instance (text : String) : Plain (publish text) := .ask _

instance (name : String) : Plain (find name) := .ask _

instance (index : Nat) : Plain (symbol index) := .ask _

instance (index : Nat) : Plain (nameOf index) := .ask _

instance (index : Nat) : Plain (resolve index) := .ask _

instance
    (name : String) (kind : Symbol.Kind) (type : DataType) :
    Plain (declare name kind type) :=
  .ask _

instance (index : Nat) (type : DataType) : Plain (setType index type) := .ask _

instance (index : Nat) (exported : Bool) (parameters : List DataType) (result : DataType) :
    Plain (ask (.setSignature index exported parameters result) done) := .ask _

instance (a b : DataType) : Plain (requireCompatible a b) := .ask _

instance (type : DataType) : Plain (form type) := .ask _

instance (type : DataType) : Plain (element type) := .ask _

instance (shape : Shape) : Plain (addType shape) := .ask _

instance (name : String) : Plain (ask (.nameModule name) done) := .ask _

instance : Plain moduleName := .ask _

instance : Plain Action.scope := .ask _

instance (name : String) : Plain (requireFresh name) := by
  unfold requireFresh
  refine .bind fun index => ?_
  cases index <;> infer_instance

instance (index : Nat) (name : String) : Plain (designate index name) := by
  unfold designate
  refine .bind fun symbol => ?_
  split <;> infer_instance

instance : Plain designatorName := by
  unfold designatorName
  refine .bind fun _ => ?_
  dsimp only
  refine @Plain.ite _ _ _ _ _ ?_ inferInstance
  refine .bind fun _ => ?_
  split
  · refine .bind fun _ => .bind fun _ => .bind fun _ => ?_
    split
    · refine .bind fun _ => .bind fun _ => .bind fun _ => ?_
      split <;> infer_instance
    · infer_instance
    · infer_instance
  · infer_instance

instance (target : Nat) : Plain (memberOf target) := by unfold memberOf; infer_instance

instance : Plain basicType := by
  unfold basicType
  refine .bind fun next => ?_
  split
  · split <;> infer_instance
  · refine .bind fun _ => .bind fun index => ?_
    split
    · infer_instance
    · refine .bind fun _ => .bind fun _ => ?_
      split <;> infer_instance
  · infer_instance

instance : Plain arraySize := by
  unfold arraySize
  refine .bind fun next => ?_
  split
  · infer_instance
  · refine .bind fun _ => .bind fun index => ?_
    split
    · refine .bind fun _ => .bind fun _ => ?_
      split <;> infer_instance
    · infer_instance
  · infer_instance

instance (parameters arguments : List DataType) : Plain (matchScalars parameters arguments) := by
  fun_induction matchScalars parameters arguments <;> infer_instance

instance (callee : Designator) (arguments : List DataType) :
    Plain (matchArguments callee arguments) := by
  unfold matchArguments
  split <;> infer_instance

instance (level : Operator.Level) : Plain (operator level) := by
  unfold operator
  refine .bind fun next => ?_
  split <;> infer_instance

instance (type : DataType) : Plain (literal type) := by unfold literal; infer_instance

instance : Plain listComma := by unfold listComma; infer_instance

end Requests

/-! ### Expressions and statements -/

theorem remaining_designatorName (s : State) (found : String × Designator) (t : State)
    (h : designatorName.Gives depth s found t) : t.remaining < s.remaining := by
  rw [gives_designatorName_iff] at h
  obtain ⟨name, -, hname⟩ := h
  obtain ⟨first, words, hspelling⟩ := name.spelling_eq_cons
  rw [hspelling] at hname
  exact hname.remaining_lt (by simp [Word.identifier])

theorem remaining_listComma (s u : State) (h : listComma.Gives depth s true u) :
    u.remaining < s.remaining := by
  rw [gives_listComma_iff] at h
  obtain ⟨hcomma, -⟩ | ⟨-, -, hfalse⟩ := h
  · exact hcomma.remaining_lt (by decide)
  · cases hfalse

theorem remaining_operator
    (level : Operator.Level) (s u : State) (h : (operator level).Gives depth s true u) :
    u.remaining < s.remaining := by
  rw [gives_operator_iff] at h
  obtain ⟨op, htranslates, -⟩ | ⟨-, -, hfalse⟩ := h
  · exact htranslates.remaining_lt op.1.kind_ne_eof
  · cases hfalse

/-- A chain costs its first operand and the last turn of its loop. -/
theorem costs_chain
    (level : Operator.Level)
    (operand : Action DataType)
    [Costs bound limit operand c]
    (hc : c + 1 ≤ 14) :
    Costs bound limit (chain level operand) (c + 1) := by
  have hloop : ∀ left : DataType, Costs bound limit (repeatWhile (operator level) do
      let right ← operand
      requireCompatible left right) 1 := fun left =>
        .repeatWhile (c := c + 0) hc (remaining_operator level)
  unfold chain
  exact .weaken inferInstance (by omega)

/-- What a rule leaves of the token that it begins with. -/
def leftover (s : State) : Nat := if s.token.kind = .sign .semicolon then 0 else 2

theorem leftover_le (s : State) : leftover s ≤ 2 := by
  unfold leftover
  split <;> omega

/-- Rules that are called with fewer than `bound` tokens to come pay for themselves. -/
class RulesAfford (bound : Nat) : Prop where
  rule : ∀ {α : Type} (rule : Rule α) (s : State), s.remaining < bound →
    AffordsAt s.remaining 0 (fun _ => leftover s) rule.action s

section Rules

variable [hrules : RulesAfford bound]

/-- A call costs one credit. -/
theorem affordsAt_call (rule : Rule α) (hs : s.remaining < bound) :
    AffordsAt bound 1 (fun _ => leftover s) (call rule done) s := by
  obtain ⟨n, outcome, hproceeds, hle⟩ := hrules.rule rule s hs
  cases outcome with
  | ok a t =>
    exact ⟨n + 0 + 1, _, .call hs hproceeds (.done a t), by simp only [balance] at hle ⊢; omega⟩
  | error halt t =>
    exact ⟨n + 1, _, .callHalts hs hproceeds, by simp only [balance] at hle ⊢; omega⟩

instance : Costs bound bound factor 1 where
  affords _ hs := (affordsAt_call .factor hs).weaken (Nat.le_refl _) fun _ => Nat.zero_le _

instance : Costs bound bound term 2 := by
  have : Costs bound bound (chain .product factor) (1 + 1) :=
    costs_chain .product factor (by decide)
  unfold term
  exact .weaken inferInstance (by decide)

instance : Costs bound bound simpleExpression 3 := by
  have : Costs bound bound (chain .sum term) (2 + 1) := costs_chain .sum term (by decide)
  unfold simpleExpression
  exact .weaken inferInstance (by decide)

instance : Costs bound bound expression 6 := by
  unfold expression
  exact .weaken inferInstance (by decide)

/--
The indices of a designator cost the last turn of their loop; an opening bracket pays for an index.
-/
instance (d : Designator) : Costs bound bound (turns indexed d) 1 where
  affords s hs := by
    refine AffordsAt.turns advancing_indexed (fun d s hs => ?_) d hs
    unfold indexed
    refine (Plain.affordsAt id fun seen t hgives hseen => ?_).bind fun seen t hgives => ?_
    · obtain rfl : seen = true := hseen
      exact remaining_accept (by simp) s t hgives
    · have ht := Nat.lt_of_le_of_lt hgives.remaining_le hs
      cases seen with
      | true =>
        refine Costs.within 1 (by decide) (fun found => ?_) ht
        cases found <;> simp
      | false => exact AffordsAt.pure (Nat.le_refl _)

instance : Costs bound bound designator 1 := by
  unfold designator
  exact .weaken inferInstance (by decide)

/-- The name in front of a designator is a token, which pays for the last turn of its indices. -/
theorem affordsAt_designator (hs : s.remaining < bound + 1) :
    AffordsAt bound 0 (fun _ => 13) designator s := by
  have htakes : ∀ found t, designatorName.Gives bound s found t → t.remaining < s.remaining :=
    remaining_designatorName s
  exact Costs.behind (Plain.affordsAt (fun _ => true) fun found t h _ => htakes found t h) htakes
    inferInstance (by decide) hs

instance (callee : Designator) : Costs bound bound (arguments callee) 7 := by
  have : Costs bound bound (separated expression listComma) 7 :=
    .separated (by decide) remaining_listComma
  unfold arguments
  exact .weaken inferInstance (by decide)

instance : Costs bound bound condition 6 := by
  unfold condition
  exact .weaken inferInstance (by decide)

instance (d : Designator) (target : String) : Costs bound bound (assignment d target) 6 := by
  unfold assignment
  exact .weaken inferInstance (by decide)

/-- A statement leaves two credits, or there is a semicolon that pays for the next one. -/
theorem affordsAt_sequenced (hs : s.remaining < bound) :
    AffordsAt bound 1 (fun _ => 2) (do statement; discard (accept (.sign .semicolon))) s := by
  refine (affordsAt_call .statement hs).bind fun _ t hstatement => ?_
  by_cases hkind : s.token.kind = .sign .semicolon
  · obtain ⟨bound, rfl⟩ : ∃ k, bound = k + 1 := ⟨bound - 1, by omega⟩
    obtain rfl : t = s := by
      rw [gives_call, Rule.action, statementRule, gives_kind_bind, hkind] at hstatement
      exact ((gives_pure _ _).1 hstatement).2
    have haccept : AffordsAt (bound + 1) 0
        (fun _ => 14) (discard (accept (.sign .semicolon))) t := by
      refine Plain.affordsAt (fun _ => true) fun _ u hgives _ => ?_
      obtain ⟨seen, hgives⟩ := (gives_discard _ _).1 hgives
      obtain ⟨-, htake, -⟩ | ⟨hne, -⟩ := (gives_accept _ _).1 hgives
      · exact remaining_takeToken_lt htake (by simp [hkind])
      · exact absurd hkind hne
    exact haccept.weaken (Nat.zero_le _) fun _ => by decide
  · rw [leftover, if_neg hkind]
    exact Plain.affordsAt_same

instance : Costs bound bound statements 2 where
  affords s hs := by
    refine AffordsAt.repeatWhile (p := 1) (r := 1) sequence_advances (fun s _ => ?_)
      (fun s hs => affordsAt_sequenced hs) hs
    refine Plain.affordsAt_same.weaken (Nat.le_refl 1) fun again => ?_
    cases again <;> decide

instance (word : Keyword) : Costs bound bound (guarded word) 8 := by
  unfold guarded
  exact .weaken inferInstance (by decide)

theorem affordsAt_factorRule (hs : s.remaining < bound + 1) :
    AffordsAt bound 0 (fun _ => 2) factorRule s := by
  have hliteral : ∀ type, s.token.kind ≠ .eof →
      AffordsAt bound 0 (fun _ => 2) (literal type) s := by
    intro type hkind
    have hplain : AffordsAt bound 0 (fun _ => 14) (literal type) s := by
      refine Plain.affordsAt (fun _ => true) fun found t hgives _ => ?_
      rw [literal, gives_bind] at hgives
      obtain ⟨text, u, hlexeme, hrest⟩ := hgives
      exact Nat.lt_of_le_of_lt hrest.remaining_le
        (remaining_takeToken_lt ((gives_lexeme text).1 hlexeme).2 hkind)
    exact hplain.weaken (Nat.le_refl 0) fun _ => by decide
  unfold factorRule
  refine .kind_bind ?_
  split
  · exact hliteral _ (by simp [*])
  · exact hliteral _ (by simp [*])
  · exact hliteral _ (by simp [*])
  · exact Costs.behind_take inferInstance (by simp [*]) (by decide) hs
  · exact Costs.behind_take inferInstance (by simp [*]) (by decide) hs
  · unfold absolute
    exact Costs.behind_take inferInstance (by simp [*]) (by decide) hs
  · unfold shift
    exact Costs.behind_take inferInstance (by simp [*]) (by decide) hs
  · split
    · unfold framed
      refine Costs.behind_take (fun _ => .bind fun _ => .bind fun _ => .bind (d := 0) fun _ => ?_)
        (by simp [*]) (by decide) hs
      split <;> infer_instance
    · exact Plain.affordsAt_same.bind fun _ _ _ => .reject _
  · unfold reference
    exact Costs.behind (affordsAt_designator hs)
      (fun _ _ h => remaining_designator h) inferInstance (by decide) hs
  · exact Plain.affordsAt_same.bind fun _ _ _ => .reject _

theorem affordsAt_statementRule (hs : s.remaining < bound + 1) :
    AffordsAt bound 0 (fun _ => leftover s) statementRule s := by
  have hcount : ∀ byOne byStep, s.token.kind ≠ .eof →
      AffordsAt bound 0 (fun _ => 2) (countStatement byOne byStep) s := by
    intro byOne byStep hkind
    unfold countStatement
    exact Costs.behind_take inferInstance hkind (by decide) hs
  have hword : ∀ text, s.token.kind ≠ .eof →
      AffordsAt bound 0 (fun _ => 2) (wordStatement text) s := by
    intro text hkind
    unfold wordStatement
    exact Costs.behind_take inferInstance hkind (by decide) hs
  by_cases hsemicolon : s.token.kind = .sign .semicolon
  · rw [leftover, if_pos hsemicolon]
    refine .kind_bind ?_
    rw [hsemicolon]
    exact .pure (Nat.le_refl 0)
  rw [leftover, if_neg hsemicolon]
  unfold statementRule
  refine .kind_bind ?_
  split
  · unfold designatorStatement
    refine Costs.behind (affordsAt_designator ?_).textOf
      (fun found t h => ?_) inferInstance (by decide) hs
    · exact hs
    · obtain ⟨u, hdesignator, -, rfl⟩ := (gives_textOf designator found).1 h
      have hlt := remaining_designator hdesignator
      exact hlt
  · unfold ifStatement
    have : Costs bound bound (repeatWhile (accept (.keyword .ELSIF)) do
        write "\x7d else if ("
        guarded .THEN) 1 := .repeatWhile (c := 0 + 8) (by decide) (remaining_accept (by simp))
    exact Costs.behind_take inferInstance (by simp [*]) (by decide) hs
  · unfold whileStatement
    exact Costs.behind_take inferInstance (by simp [*]) (by decide) hs
  · unfold repeatStatement
    exact Costs.behind_take inferInstance (by simp [*]) (by decide) hs
  · unfold returnStatement
    exact Costs.behind_take inferInstance (by simp [*]) (by decide) hs
  · exact hcount _ _ (by simp [*])
  · exact hcount _ _ (by simp [*])
  · unfold assertStatement
    exact Costs.behind_take inferInstance (by simp [*]) (by decide) hs
  · exact hword _ (by simp [*])
  · exact hword _ (by simp [*])
  · exact absurd ‹_› hsemicolon
  · exact Plain.affordsAt_same.bind fun _ _ _ => .reject _

end Rules

/--
Rules pay for themselves at every number of tokens to come: those that they call stand behind a
token.
-/
instance rulesAfford (bound : Nat) : RulesAfford bound := by
  induction bound using Nat.strong_induction_on with
  | _ bound ih =>
    refine ⟨fun rule s hs => ?_⟩
    have := ih s.remaining hs
    cases rule with
    | factor =>
      exact (affordsAt_factorRule (Nat.lt_succ_self _)).weaken (Nat.le_refl 0)
        fun _ => leftover_le s
    | statement => exact affordsAt_statementRule (Nat.lt_succ_self _)

/-! ### Declarations and modules -/

section Declarations

instance : Plain elementDeclarator := by unfold elementDeclarator; infer_instance

instance : Plain declaredType := by unfold declaredType; infer_instance

instance : Plain importEntry := by unfold importEntry; infer_instance

instance
    (sign : Sign) (item : Action α) [Plain item] :
    Costs bound limit (separated item (accept (.sign sign))) 1 :=
  .separated (c := 0) (by decide) (remaining_accept (by simp))

instance : Costs bound limit importList 1 := by
  unfold importList
  exact .weaken inferInstance (by decide)

instance : Plain constantValue := by
  unfold constantValue
  refine .bind fun negated => .bind fun next => ?_
  split <;> infer_instance

instance : Plain constantDeclaration := by unfold constantDeclaration; infer_instance

/-- What begins with a name takes a token. -/
theorem remaining_named {f : String → Action α} {a : α} (h : Gives depth (identifier >>= f) s a t) :
    t.remaining < s.remaining := by
  rw [gives_bind] at h
  obtain ⟨name, u, hname, h⟩ := h
  exact Nat.lt_of_le_of_lt h.remaining_le (remaining_identifier hname)

/--
Declarations behind each other cost what their loop does; each takes the name that it begins with.
-/
theorem costs_group
    {body : Action Unit}
    {p : Nat}
    (htakes : ∀ s t, body.Gives bound s () t → t.remaining < s.remaining)
    (hbody : ∀ s, s.remaining < limit → AffordsAt bound p (fun _ => p + 1) body s) :
    Costs bound limit (repeatWhile (sees .identifier) body) (p + 1) where
  affords s hs := by
    refine AffordsAt.repeatWhile (fun s u v hsees hgives => ?_) (fun s _ => ?_) hbody hs
    · obtain ⟨-, rfl⟩ := (gives_sees _ _).1 hsees
      exact htakes _ _ hgives
    · refine Plain.affordsAt_same.weaken (Nat.le_refl p) fun again => ?_
      cases again
      · exact Nat.zero_le p
      · exact Nat.le_refl p

instance : Costs bound limit constantDeclarations 1 := by
  refine costs_group (fun _ _ => remaining_named) fun s _ => ?_
  have hnamed : AffordsAt bound 0 (fun _ => 14) constantDeclaration s :=
    Plain.affordsAt (fun _ => true) fun _ _ hgives _ => remaining_named hgives
  exact hnamed.weaken (Nat.le_refl 0) fun _ => by decide

instance : Plain variableName := by unfold variableName; infer_instance

instance (d : Declarator) (v : Named) : Plain (variableOf d v) := by
  unfold variableOf
  refine .bind fun _ => .bind fun _ => .bind fun _ => ?_
  split <;> infer_instance

theorem remaining_variableDeclaration (s t : State) (h : variableDeclaration.Gives depth s () t) :
    t.remaining < s.remaining := by
  rw [variableDeclaration, gives_bind] at h
  obtain ⟨names, u, hnames, h⟩ := h
  rw [gives_bind] at h
  obtain ⟨_, v, hcolon, h⟩ := h
  have hv := remaining_expect (by simp) hcolon
  exact Nat.lt_of_le_of_lt h.remaining_le (Nat.lt_of_lt_of_le hv hnames.remaining_le)

/-- The colon behind the names pays for the next declaration. -/
theorem affordsAt_variableDeclaration : AffordsAt bound 1 (fun _ => 2) variableDeclaration s := by
  have hnames : Costs bound (s.remaining + 1) (separated variableName (accept (.sign .comma))) 1 :=
    inferInstance
  have hcolon : ∀ t, AffordsAt bound 0 (fun _ => 14) (expect (.sign .colon)) t := fun t =>
    Plain.affordsAt (fun _ => true) fun _ _ hgives _ => remaining_expect (by simp) hgives
  refine (hnames.affords s (Nat.lt_succ_self _)).bind fun names t _ =>
    (hcolon t).bind fun _ u _ => ?_
  exact Plain.affordsAt_same.weaken (Nat.le_refl 14) fun _ => by decide

instance : Costs bound limit variableDeclarations 2 :=
  costs_group remaining_variableDeclaration fun _ _ => affordsAt_variableDeclaration

instance (wanted : String) : Plain (closingName wanted) := by unfold closingName; infer_instance

instance : Plain parameterName := by unfold parameterName; infer_instance

instance (d : Declarator) (p : Named) :
    Plain (parameterOf d p) := by
  unfold parameterOf
  infer_instance

instance : Costs bound limit parameterGroup 1 := by
  unfold parameterGroup
  exact .weaken inferInstance (by decide)

instance : Costs bound limit parameterList 2 := by
  have : Costs bound limit (separated parameterGroup (accept (.sign .semicolon))) 2 :=
    .separated (by decide) (remaining_accept (by simp))
  unfold parameterList
  exact .weaken inferInstance (by decide)

instance : Plain resultType := by unfold resultType; infer_instance

instance
    (entry : Nat) (name : String) (exported : Bool) :
    Costs bound limit (procedureHeader entry name exported) 2 := by
  unfold procedureHeader
  exact .weaken inferInstance (by decide)

instance (name : String) : Costs bound bound (procedureBody name) 3 := by
  have : Costs bound bound (repeatWhile (accept (.keyword .VAR)) variableDeclarations) 1 :=
    .repeatWhile (c := 2) (by decide) (remaining_accept (by simp))
  unfold procedureBody
  exact .weaken inferInstance (by decide)

instance : Costs bound bound procedureDeclaration 5 := by
  unfold procedureDeclaration
  exact .weaken inferInstance (by decide)

/-- A group of declarations behind its word. -/
theorem remaining_group
    {word : Keyword} {body : Action Unit} {rest : Action Bool}
    (h : Gives depth (do
      if ← accept (.keyword word) then
        body
        return true
      else rest) s true t) : t.remaining < s.remaining ∨ rest.Gives depth s true t := by
  rw [gives_bind] at h
  obtain ⟨seen, u, haccept, h⟩ := h
  cases seen with
  | true =>
    exact Or.inl (Nat.lt_of_le_of_lt h.remaining_le (remaining_accept (by simp) s u haccept))
  | false =>
    obtain ⟨-, -, hfalse⟩ | ⟨-, rfl, -⟩ := (gives_accept _ _).1 haccept
    · cases hfalse
    · exact Or.inr h

theorem remaining_declarations (s t : State) (h : declarations.Gives depth s true t) :
    t.remaining < s.remaining := by
  obtain h | h := remaining_group h
  · exact h
  · obtain h | h := remaining_group h
    · exact h
    · obtain h | h := remaining_group h
      · exact h
      · cases h

/-- The word in front of a group pays for the group and for the next turn. -/
theorem affordsAt_group
    {word : Keyword}
    {body : Action Unit}
    {rest : Action Bool}
    [Costs bound limit body c]
    (hc : c + 1 ≤ 14)
    (hrest : AffordsAt bound 0 (fun again => bif again then 1 else 0) rest s)
    (hs : s.remaining < limit) :
    AffordsAt bound 0 (fun again => bif again then 1 else 0)
      (do
        if ← accept (.keyword word) then
          body
          return true
        else rest) s := by
  refine (Plain.affordsAt id fun seen t hgives hseen => ?_).bind fun seen t hgives => ?_
  · obtain rfl : seen = true := hseen
    exact remaining_accept (by simp) s t hgives
  · cases seen with
    | true =>
      have ht := Nat.lt_of_le_of_lt hgives.remaining_le hs
      have hbody : AffordsAt bound (0 + 14) (fun _ => 1) body t :=
        Costs.within 1 hc (fun _ => Nat.le_refl 1) ht
      exact hbody.bind fun _ _ _ => .pure (Nat.le_refl 1)
    | false =>
      obtain ⟨-, -, hfalse⟩ | ⟨-, rfl, -⟩ := (gives_accept _ _).1 hgives
      · cases hfalse
      · exact hrest

instance : Costs bound bound (repeatWhile declarations (pure ())) 1 where
  affords s hs := by
    refine AffordsAt.repeatWhile (fun s u v hmore hgives => ?_) (fun s hs => ?_)
      (fun s _ => .pure (Nat.le_refl 1)) hs
    · exact Nat.lt_of_le_of_lt hgives.remaining_le (remaining_declarations s u hmore)
    · exact affordsAt_group (by decide)
        (affordsAt_group (by decide) (affordsAt_group (by decide) (.pure (Nat.le_refl 0)) hs) hs) hs

instance : Plain moduleHead := by unfold moduleHead; infer_instance

instance : Costs bound bound moduleBody 2 := by
  unfold moduleBody
  exact .weaken inferInstance (by decide)

instance : Plain moduleEnd := by unfold moduleEnd; infer_instance

/-- The first word of a module pays for what no other token pays for. -/
theorem affordsAt_wholeModule (header : String) (hs : s.remaining < bound + 1) :
    AffordsAt bound 0 (fun _ => 0) (wholeModule header) s := by
  have htakes : ∀ a t, moduleHead.Gives bound s a t → t.remaining < s.remaining := by
    intro a t h
    rw [moduleHead, gives_bind] at h
    obtain ⟨_, u, hword, h⟩ := h
    exact Nat.lt_of_le_of_lt h.remaining_le (remaining_expect (by simp) hword)
  have : Costs bound bound (repeatWhile (accept (.keyword .IMPORT)) importList) 1 :=
    .repeatWhile (c := 1) (by decide) (remaining_accept (by simp))
  unfold wholeModule
  exact Costs.behind (Plain.affordsAt (fun _ => true) fun a t h _ => htakes a t h) htakes
    inferInstance (by decide) hs

end Declarations

/-! ### Compilations -/

/-- No single request runs out. -/
theorem Request.perform_ne_exhausted (request : Request α) (s t : State) :
    request.perform s ≠ .error .exhausted t := by
  have htable : ∀ {β : Type} (answer : Except Fault β),
      Request.ofTable answer s ≠ .error .exhausted t := by
    intro β answer
    cases answer <;> nofun
  have htypes : ∀ {β : Type} (answer : Except TypeError β),
      Request.ofTypes answer s ≠ .error .exhausted t := by
    intro β answer
    cases answer <;> nofun
  have hchange : ∀ change, Request.changeSymbols change s ≠ .error .exhausted t := by
    intro change
    unfold Request.changeSymbols
    split <;> nofun
  cases request with
  | take =>
    change Request.takeToken s ≠ _
    unfold Request.takeToken
    split <;> nofun
  | declare name kind type =>
    change Request.declareSymbol name kind type s ≠ _
    unfold Request.declareSymbol
    split <;> nofun
  | setType index type => exact hchange fun table => table.setType index type
  | setSignature index exported parameters result =>
    intro h
    obtain h | ⟨_, _, -, h⟩ := (Effect.bind_eq_error_iff ..).1 h
    · exact hchange _ h
    · cases h
  | find name => exact htable _
  | symbol index => exact htable _
  | nameOf index => exact htable _
  | resolve index => exact htable _
  | requireCompatible a b => exact htypes _
  | element type => exact htypes _
  | look => nofun
  | write text => nofun
  | publish text => nofun
  | form type => nofun
  | addType shape => nofun
  | nameModule name => nofun
  | moduleName => nofun
  | scope => nofun

theorem leave_ne_exhausted (mark : SymbolTable.Mark) (floor : Nat) (s t : State) :
    leave mark floor s ≠ .error .exhausted t := by
  unfold leave
  split <;> simp

/-- A run that proceeds does not run out of turns or of depth. -/
theorem Action.Proceeds.ne_exhausted
    {action : Action α} {n : Nat} {outcome : Outcome α} (h : action.Proceeds bound s n outcome) :
    ∀ t, outcome ≠ .error .exhausted t := by
  induction h with
  | done a s => simp
  | reject diagnostic s => simp
  | ask _ _ ih => exact ih
  | askHalts hperform =>
    rintro t ⟨⟩
    exact Request.perform_ne_exhausted _ _ _ hperform
  | capture _ _ _ _ ih => exact ih
  | @captureHalts _ _ _ _ _ _ _ _ _ inner _ hcaptured hbody =>
    rintro t ⟨⟩
    cases inner with
    | ok a u => cases hcaptured
    | error halt u =>
      cases hcaptured
      exact hbody u rfl
  | procedure _ _ _ _ ih => exact ih
  | @procedureHalts _ _ _ _ _ _ s _ _ inner _ henclosed hbody =>
    rintro t ⟨⟩
    unfold enclosed settled at henclosed
    cases inner with
    | ok a u =>
      dsimp only at henclosed
      split at henclosed
      · cases henclosed
      · cases henclosed
        exact leave_ne_exhausted _ _ _ _ ‹_›
    | error halt u =>
      dsimp only at henclosed
      split at henclosed
      · cases henclosed
        exact hbody u rfl
      · cases henclosed
        exact leave_ne_exhausted _ _ _ _ ‹_›
  | lastTurn _ _ _ ih => exact ih
  | nextTurn _ _ _ _ ih => exact ih
  | turnHalts _ hturn =>
    rintro t ⟨⟩
    exact hturn _ rfl
  | call _ _ _ _ ih => exact ih
  | callHalts _ _ hrule =>
    rintro t ⟨⟩
    exact hrule _ rfl

/-- Performing a module proceeds, and its tokens pay for it. -/
theorem exists_proceeds_wholeModule (header : String) (s : State) :
    ∃ n,
      (wholeModule header).Proceeds s.remaining s n ((wholeModule header).perform s) ∧
      n ≤ 14 * s.remaining := by
  obtain ⟨n, outcome, hproceeds, hle⟩ := affordsAt_wholeModule header (Nat.lt_succ_self s.remaining)
  refine ⟨n, ?_, ?_⟩
  · rw [Action.perform, hproceeds.run_eq (Nat.le_succ _)]
    exact hproceeds
  · rw [balance_zero, State.credit, State.credit] at hle
    omega

/-- A compilation never runs out of turns or of depth. -/
theorem perform_wholeModule_ne_exhausted (header : String) (s t : State) :
    (wholeModule header).perform s ≠ .error .exhausted t := by
  obtain ⟨n, hproceeds, -⟩ := exists_proceeds_wholeModule header s
  exact hproceeds.ne_exhausted t

/--
A compilation that fails has rejected its source: it comes neither to a fault nor to the end of its
turns.
-/
theorem exists_rejected_of_perform
    {source header : String}
    {limits : Limits}
    {start t : State}
    {halt : Halt}
    (hstart : State.start source limits = .ok start)
    (h : (wholeModule header).perform start = .error halt t) :
    ∃ diagnostic, halt = .rejected diagnostic := by
  cases halt with
  | rejected diagnostic => exact ⟨diagnostic, rfl⟩
  | fault fault =>
    have hhonors := @honors_wholeModule reservedEntries (start.remaining + 1) header
    exact absurd rfl ((hhonors.halts (start_spec hstart).1 h).2 fault)
  | exhausted => exact absurd h (perform_wholeModule_ne_exhausted header start t)

end Compilation

/-! ### The scanner -/

/-- Where no token is obtained the scanner has moved on. -/
theorem Cursor.length_lt_of_next_error
    {symbols : SymbolTable}
    {c behind : Cursor}
    {halt : ScanHalt}
    (h : c.next symbols = .error halt behind) :
    behind.rest.length < c.rest.length := by
  have hbody : c.body ≠ [] := by
    intro hnil
    rw [Cursor.next, read_of_body_nil hnil] at h
    cases h
  have hread : behind = c.read.2 := by
    unfold Cursor.next at h
    split at h
    · cases h
      simp [*]
    · split at h
      · split at h
        · cases h
          simp [*]
        · cases h
      · cases h
  rw [hread]
  exact c.length_read_lt hbody

namespace Compilation

open Oberon.Compilation.Action

theorem remaining_start_le
    {source : String}
    {limits : Limits}
    {start : State}
    (h : State.start source limits = .ok start) :
    start.remaining ≤ source.length := by
  obtain ⟨-, -, hnext⟩ := start_spec h
  have hlength : (Cursor.ofText source).rest.length = source.length := String.length_toList
  unfold State.remaining
  by_cases hkind : start.token.kind = .eof
  · simp [Cursor.rest_eq_nil_of_next hnext hkind, hkind]
  · have hlt := Cursor.length_next_lt hnext hkind
    rw [if_neg hkind]
    omega

/--
A compilation comes to an end by itself.  The scanner moves on with every token but the end of the
source, malformed ones included. From the first token on, a compilation proceeds to the end that it
has: every turn of a loop with another one behind it takes a token, and so does every rule before it
calls another one.  There are at most fourteen turns and calls for each character.
-/
theorem compilation_proceeds (source header : String) (limits : Limits) :
    (∀ (symbols : SymbolTable) (c : Cursor),
      (∀ token behind, c.next symbols = .ok token behind → token.kind ≠ .eof →
        behind.rest.length < c.rest.length) ∧
      ∀ halt behind, c.next symbols = .error halt behind → behind.rest.length < c.rest.length) ∧
    ∀ start, State.start source limits = .ok start →
      (∀ t, (wholeModule header).perform start ≠ .error .exhausted t) ∧
      ∃ n,
        n ≤ 14 * source.length ∧
        (wholeModule header).Proceeds start.remaining start n
          ((wholeModule header).perform start) := by
  refine ⟨fun symbols c => ⟨fun token behind => Cursor.length_next_lt,
    fun halt behind => Cursor.length_lt_of_next_error⟩, ?_⟩
  intro start hstart
  obtain ⟨n, hproceeds, hle⟩ := exists_proceeds_wholeModule header start
  refine ⟨perform_wholeModule_ne_exhausted header start, n, ?_, hproceeds⟩
  have := remaining_start_le hstart
  omega

/-- Loops in each other, and a factor in a factor. -/
theorem compilation_proceeds_nested :
    ∃ start n t,
      State.start "MODULE M;BEGIN REPEAT WHILE ~ ~TRUE DO END UNTIL TRUE END M." {} = .ok start ∧
      n ≤ 14 * "MODULE M;BEGIN REPEAT WHILE ~ ~TRUE DO END UNTIL TRUE END M.".length ∧
      (wholeModule "M.h").Proceeds start.remaining start n (.ok () t) := by
  have hchecked : (State.start
      "MODULE M;BEGIN REPEAT WHILE ~ ~TRUE DO END UNTIL TRUE END M." {}).toOption.any (fun start =>
        ((wholeModule "M.h").outcome? (start.remaining + 1) start).isSome) = true := by
    decide +kernel
  obtain ⟨start, hstart, hchecked⟩ := State.exists_start_of_any hchecked
  obtain ⟨⟨_, t⟩, ht⟩ := Option.isSome_iff_exists.1 hchecked
  have hperform : (wholeModule "M.h").perform start = .ok () t := outcome?_eq_some_iff.1 ht
  obtain ⟨-, n, hn, hproceeds⟩ := (compilation_proceeds _ "M.h" {}).2 start hstart
  rw [hperform] at hproceeds
  exact ⟨start, n, t, hstart, hn, hproceeds⟩

end Compilation
end Oberon
