import Oberon.Proofs.Grammar.Expression

/-!
# The translation of expressions

Reading an expression succeeds exactly on the spellings of well-typed expressions of the grammar,
and then takes exactly that spelling, gives the type of the expression and writes its text.

**Recognition.**  `Recognizes depth action phrases` states this of an action and one kind of phrase.
It is shown of chains over any kind of operand, and from factors it climbs to terms, simple
expressions and expressions. Factors contain expressions, so factors are recognized by induction on
the number of rules that may stand inside each other: every rule inside a factor starts behind a
token of the factor.
-/

namespace Oberon
namespace Compilation

open Oberon.Grammar
open Oberon.Compilation.Action

variable {α : Type}

/-! ### Kinds of phrases -/

/--
One kind of phrase of the grammar: how its phrases are spelled, where they end, which type they have
and how they are written.
-/
structure Phrases (α : Type) where
  spelling : α → List Word
  StopsBefore : α → Token.Kind → Prop
  type? : Context → α → Option DataType
  text : Context → α → String

namespace Phrases

def factors : Phrases Factor :=
  ⟨Factor.spelling, Factor.StopsBefore, Factor.type?, Factor.text⟩

def terms : Phrases Term :=
  ⟨Term.spelling, Term.StopsBefore, Term.type?, Term.text⟩

def simples : Phrases Simple :=
  ⟨Simple.spelling, Simple.StopsBefore, Simple.type?, Simple.text⟩

def expressions : Phrases Expression :=
  ⟨Expression.spelling, Expression.StopsBefore, Expression.type?, Expression.text⟩

end Phrases

/--
From a state with fewer than `depth` tokens to come, the action succeeds exactly on the spelling of
a well-typed phrase that the token behind it does not continue, and then gives its type and writes
its text.
-/
def Recognizes (depth : Nat) (action : Action DataType) (phrases : Phrases α) : Prop :=
  ∀ s : State, s.remaining < depth → ∀ (type : DataType) (t : State),
    action.Gives depth s type t ↔
      ∃ phrase,
        phrases.type? s.context phrase = some type ∧
        phrases.StopsBefore phrase t.token.kind ∧
        s.Translates (phrases.spelling phrase) (phrases.text s.context phrase) t

variable {depth : Nat} {s t : State}

/-! ### Chains -/

/-- An operator of a level is taken and written, or there is none. -/
theorem gives_operator_iff (level : Operator.Level) (seen : Bool) :
    (operator level).Gives depth s seen t ↔
      (∃ op : Operator.At level, s.Translates [op.1.word] op.1.text t ∧ seen = true) ∨
      (s.token.kind.operatorAt? level = none ∧ t = s ∧ seen = false) := by
  unfold operator
  rw [gives_bind]
  simp only [gives_kind]
  constructor
  · rintro ⟨kind, u, ⟨rfl, rfl⟩, h⟩
    cases hop : u.token.kind.operatorAt? level with
    | none =>
      simp only [hop, gives_pure] at h
      exact Or.inr ⟨rfl, h.2, h.1⟩
    | some op =>
      obtain ⟨hkind, hlevel⟩ := (Operator.operatorAt?_eq_some_iff ..).1 hop
      simp only [hop, gives_bind, gives_write, gives_take, gives_pure] at h
      obtain ⟨_, v, rfl, _, w, htake, rfl, rfl⟩ := h
      refine Or.inl ⟨⟨op, hlevel⟩, ?_, rfl⟩
      have hword : (u.write op.text).token.word = op.word := (op.word_eq_iff _).2 hkind
      have htaken := State.Translates.taken htake
      rw [hword] at htaken
      simpa using (State.Translates.written u op.text).trans htaken
  · rintro (⟨⟨op, hlevel⟩, htranslates, rfl⟩ | ⟨hnone, rfl, rfl⟩)
    · refine ⟨s.token.kind, s, ⟨rfl, rfl⟩, ?_⟩
      have hkind := (op.word_eq_iff _).1 htranslates.token_word
      have hop := (Operator.operatorAt?_eq_some_iff s.token.kind level op).2 ⟨hkind, hlevel⟩
      have hsplit : s.Translates ([] ++ [op.word]) (op.text ++ "") t := by
        simpa using htranslates
      rw [State.translates_append_iff] at hsplit
      obtain ⟨u, hwritten, htaken⟩ := hsplit
      rw [State.translates_nil_iff] at hwritten
      rw [State.translates_take_iff] at htaken
      simp only [hop, gives_bind, gives_write, gives_take, gives_pure]
      exact ⟨(), u, hwritten, (), t, htaken.2, trivial, rfl⟩
    · exact ⟨t.token.kind, t, ⟨rfl, rfl⟩, by simp [hnone]⟩

namespace Phrases

variable (phrases : Phrases α) {level : Operator.Level}

/-- Operands, each behind its operator. -/
def chainSpelling : List (Operator.At level × α) → List Word
  | [] => []
  | (op, operand) :: others => op.1.word :: phrases.spelling operand ++ chainSpelling others

def chainText (c : Context) : List (Operator.At level × α) → String
  | [] => ""
  | (op, operand) :: others => op.1.text ++ phrases.text c operand ++ chainText c others

/-- Every operand is compatible with a type. -/
def chainFits (c : Context) (type : DataType) : List (Operator.At level × α) → Bool
  | [] => true
  | (_, operand) :: others =>
      (phrases.type? c operand).any (c.types.compatible type) && chainFits c type others

end Phrases

/-- One operand behind its operator: its type goes with that of the first operand. -/
def chainLink (operand : Action DataType) (left : DataType) : Action Unit := do
  let right ← operand
  requireCompatible left right

theorem rounds_advance (level : Operator.Level) (body : Action Unit) :
    ∀ s u v : State, (operator level).Gives depth s true u → body.Gives depth u () v →
      v.remaining < s.remaining := by
  intro s u v hoperator hbody
  rw [gives_operator_iff] at hoperator
  obtain ⟨op, htranslates, -⟩ | ⟨-, -, hfalse⟩ := hoperator
  · exact Nat.lt_of_le_of_lt hbody.remaining_le (htranslates.remaining_lt op.1.kind_ne_eof)
  · cases hfalse

/--
The operands behind the first one of a chain; the induction carries along the operand read last.
-/
theorem rounds_chain_iff
    {phrases : Phrases α} {operand : Action DataType} {level : Operator.Level}
    (hoperand : Recognizes depth operand phrases)
    (hstops : ∀ (phrase : α) (op : Operator.At level), phrases.StopsBefore phrase op.1.kind)
    (left : DataType) (first : α) {s : State} (hs : s.remaining < depth) :
    (Rounds depth (operator level) (chainLink operand left) s t ∧
      phrases.StopsBefore first s.token.kind) ↔
      ∃ others : List (Operator.At level × α),
        phrases.chainFits s.context left others = true ∧
        t.token.kind.operatorAt? level = none ∧
        phrases.StopsBefore (lastOperand first others) t.token.kind ∧
        s.Translates (phrases.chainSpelling others) (phrases.chainText s.context others) t := by
  constructor
  · rintro ⟨hrounds, hfirst⟩
    induction hrounds generalizing first with
    | @last s t hmore =>
      rw [gives_operator_iff] at hmore
      obtain ⟨op, -, hfalse⟩ | ⟨hnone, rfl, -⟩ := hmore
      · cases hfalse
      · exact ⟨[], rfl, hnone, hfirst, State.Translates.refl t⟩
    | @again s t u v hmore hbody hrest ih =>
      rw [gives_operator_iff] at hmore
      obtain ⟨op, hop, -⟩ | ⟨-, -, hfalse⟩ := hmore
      · simp only [chainLink, gives_bind, gives_requireCompatible] at hbody
        obtain ⟨right, w, hright, hcompatible, rfl⟩ := hbody
        have hu : u.remaining < depth := Nat.lt_of_le_of_lt hop.remaining_le hs
        rw [hoperand u hu] at hright
        obtain ⟨phrase, htype, hstop, htranslates⟩ := hright
        have hv : v.remaining < depth := Nat.lt_of_le_of_lt htranslates.remaining_le hu
        obtain ⟨others, hfits, hnone, hlast, hothers⟩ := ih phrase hv hstop
        rw [hop.context_eq] at htype htranslates
        have hlink := hop.trans htranslates
        rw [hlink.context_eq] at hfits hothers
        refine ⟨(op, phrase) :: others, ?_, hnone, hlast, hlink.trans hothers⟩
        have hcompatible : s.context.types.compatible left right = true := by
          rw [hlink.types_eq] at hcompatible
          exact hcompatible
        simp [Phrases.chainFits, htype, hcompatible, hfits]
      · cases hfalse
  · rintro ⟨others, hfits, hnone, hlast, htranslates⟩
    induction others generalizing first s with
    | nil =>
      obtain rfl : t = s := by
        simpa [Phrases.chainSpelling, Phrases.chainText, State.translates_nil_iff] using htranslates
      refine ⟨.last ?_, hlast⟩
      rw [gives_operator_iff]
      exact Or.inr ⟨hnone, rfl, rfl⟩
    | cons link others ih =>
      obtain ⟨op, phrase⟩ := link
      have hsplit : s.Translates
          (([op.1.word] ++ phrases.spelling phrase) ++ phrases.chainSpelling others)
          ((op.1.text ++ phrases.text s.context phrase) ++ phrases.chainText s.context others) t :=
        htranslates
      rw [State.translates_append_iff] at hsplit
      obtain ⟨v, hlink, hothers⟩ := hsplit
      have hparts := hlink
      rw [State.translates_append_iff] at hparts
      obtain ⟨u, hop, hphrase⟩ := hparts
      have hu : u.remaining < depth := Nat.lt_of_le_of_lt hop.remaining_le hs
      have hv : v.remaining < depth := Nat.lt_of_le_of_lt hphrase.remaining_le hu
      simp only [Phrases.chainFits, Bool.and_eq_true, Option.any_eq_true] at hfits
      obtain ⟨⟨right, htype, hcompatible⟩, hfits⟩ := hfits
      rw [← hlink.context_eq] at hfits hothers
      obtain ⟨hrest, hstop⟩ := ih phrase hv hfits hlast hothers
      have hkind : s.token.kind = op.1.kind := (op.1.word_eq_iff _).1 hop.token_word
      refine ⟨.again (u := u) (v := v) ?_ ?_ hrest, ?_⟩
      · rw [gives_operator_iff]
        exact Or.inl ⟨op, hop, rfl⟩
      · simp only [chainLink, gives_bind, gives_requireCompatible]
        rw [← hop.context_eq] at htype hphrase
        refine ⟨right, v, (hoperand u hu right v).2 ⟨phrase, htype, hstop, hphrase⟩, ?_, rfl⟩
        rw [hlink.types_eq]
        exact hcompatible
      · rw [hkind]
        exact hstops first op

/-- A chain is its first operand and what follows it. -/
theorem gives_chain_iff
    {phrases : Phrases α} {operand : Action DataType} {level : Operator.Level}
    (hoperand : Recognizes depth operand phrases)
    (hstops : ∀ (phrase : α) (op : Operator.At level), phrases.StopsBefore phrase op.1.kind)
    {s : State} (hs : s.remaining < depth) (type : DataType) :
    (chain level operand).Gives depth s type t ↔
      ∃ (first : α) (others : List (Operator.At level × α)),
        phrases.type? s.context first = some type ∧
        phrases.chainFits s.context type others = true ∧
        t.token.kind.operatorAt? level = none ∧
        phrases.StopsBefore (lastOperand first others) t.token.kind ∧
        s.Translates (phrases.spelling first ++ phrases.chainSpelling others)
          (phrases.text s.context first ++ phrases.chainText s.context others) t := by
  have hloop : ∀ (left : DataType) (u : State) (a : Unit),
      (repeatWhile (operator level) (chainLink operand left)).Gives depth u a t ↔
        Rounds depth (operator level) (chainLink operand left) u t := fun left u a =>
    gives_repeatWhile_iff (rounds_advance level _)
  constructor
  · intro h
    simp only [chain, gives_bind, gives_pure] at h
    obtain ⟨left, u, hfirst, a, v, hrounds, rfl, rfl⟩ := h
    rw [hoperand s hs] at hfirst
    obtain ⟨first, htype, hstop, htranslates⟩ := hfirst
    have hu : u.remaining < depth := Nat.lt_of_le_of_lt htranslates.remaining_le hs
    obtain ⟨others, hfits, hnone, hlast, hothers⟩ :=
      (rounds_chain_iff hoperand hstops type first hu).1 ⟨(hloop type u a).1 hrounds, hstop⟩
    rw [htranslates.context_eq] at hfits hothers
    exact ⟨first, others, htype, hfits, hnone, hlast, htranslates.trans hothers⟩
  · rintro ⟨first, others, htype, hfits, hnone, hlast, htranslates⟩
    rw [State.translates_append_iff] at htranslates
    obtain ⟨u, hfirst, hothers⟩ := htranslates
    have hu : u.remaining < depth := Nat.lt_of_le_of_lt hfirst.remaining_le hs
    rw [← hfirst.context_eq] at hfits hothers
    obtain ⟨hrounds, hstop⟩ :=
      (rounds_chain_iff hoperand hstops type first hu).2 ⟨others, hfits, hnone, hlast, hothers⟩
    simp only [chain, gives_bind, gives_pure]
    exact ⟨type, u, (hoperand s hs type u).2 ⟨first, htype, hstop, hfirst⟩, (), t,
      (hloop type u ()).2 hrounds, rfl, rfl⟩

/-! ### Terms, simple expressions and expressions -/

theorem factors_chainSpelling (others : List (Operator.At .product × Factor)) :
    Phrases.factors.chainSpelling others = factorsSpelling others := by
  induction others with
  | nil => rw [Phrases.chainSpelling, factorsSpelling]
  | cons link others ih =>
    rw [Phrases.chainSpelling, factorsSpelling, ih]
    rfl

theorem factors_chainText (c : Context) (others : List (Operator.At .product × Factor)) :
    Phrases.factors.chainText c others = factorsText c others := by
  induction others with
  | nil => rw [Phrases.chainText, factorsText]
  | cons link others ih =>
    rw [Phrases.chainText, factorsText, ih]
    rfl

theorem factors_chainFits
    (c : Context) (type : DataType) (others : List (Operator.At .product × Factor)) :
    Phrases.factors.chainFits c type others = factorsFit c type others := by
  induction others with
  | nil => rw [Phrases.chainFits, factorsFit]
  | cons link others ih =>
    rw [Phrases.chainFits, factorsFit, ih]
    rfl

theorem terms_chainSpelling (others : List (Operator.At .sum × Term)) :
    Phrases.terms.chainSpelling others = termsSpelling others := by
  induction others with
  | nil => rw [Phrases.chainSpelling, termsSpelling]
  | cons link others ih =>
    rw [Phrases.chainSpelling, termsSpelling, ih]
    rfl

theorem terms_chainText (c : Context) (others : List (Operator.At .sum × Term)) :
    Phrases.terms.chainText c others = termsText c others := by
  induction others with
  | nil => rw [Phrases.chainText, termsText]
  | cons link others ih =>
    rw [Phrases.chainText, termsText, ih]
    rfl

theorem terms_chainFits
    (c : Context) (type : DataType) (others : List (Operator.At .sum × Term)) :
    Phrases.terms.chainFits c type others = termsFit c type others := by
  induction others with
  | nil => rw [Phrases.chainFits, termsFit]
  | cons link others ih =>
    rw [Phrases.chainFits, termsFit, ih]
    rfl

/-- The chain inside a term. -/
theorem gives_factors_iff
    (hfactor : Recognizes depth factor Phrases.factors)
    {s t : State} (hs : s.remaining < depth) (type : DataType) :
    (chain .product factor).Gives depth s type t ↔
      ∃ first others,
        (Term.chain first others).type? s.context = some type ∧
        (Term.chain first others).StopsBefore t.token.kind ∧
        s.Translates (Term.chain first others).spelling
          (first.text s.context ++ factorsText s.context others) t := by
  rw [gives_chain_iff hfactor (fun phrase op => phrase.stopsBefore_operator op.1) hs]
  simp only [factors_chainSpelling, factors_chainText, factors_chainFits, Term.type?_eq_some_iff,
    Term.spelling, Term.StopsBefore, and_assoc]
  rfl

theorem recognizes_term (hfactor : Recognizes depth factor Phrases.factors) :
    Recognizes depth term Phrases.terms := by
  intro s hs type t
  constructor
  · intro h
    simp only [term, gives_bind, gives_write_iff, gives_pure] at h
    obtain ⟨_, u, hopen, inner, v, hinner, _, w, hclose, rfl, rfl⟩ := h
    have hu : u.remaining < depth := Nat.lt_of_le_of_lt hopen.remaining_le hs
    rw [gives_factors_iff hfactor hu, hopen.context_eq] at hinner
    obtain ⟨first, others, htype, hstops, htranslates⟩ := hinner
    refine ⟨.chain first others, htype, ?_, ?_⟩
    · rw [hclose.token_eq]
      exact hstops
    · have hall := (hopen.trans htranslates).trans hclose
      simpa [Phrases.terms, Term.text, String.append_assoc] using hall
  · rintro ⟨⟨first, others⟩, htype, hstops, htranslates⟩
    have hall : s.Translates ([] ++ (Term.chain first others).spelling ++ [])
        ("(" ++ (first.text s.context ++ factorsText s.context others) ++ ")") t := by
      simpa [Phrases.terms, Term.text, String.append_assoc] using htranslates
    rw [State.translates_append_iff] at hall
    obtain ⟨v, hall, hclose⟩ := hall
    rw [State.translates_append_iff] at hall
    obtain ⟨u, hopen, hinner⟩ := hall
    have hu : u.remaining < depth := Nat.lt_of_le_of_lt hopen.remaining_le hs
    simp only [term, gives_bind, gives_write_iff, gives_pure]
    refine ⟨(), u, hopen, type, v, ?_, (), t, hclose, rfl, rfl⟩
    rw [gives_factors_iff hfactor hu, hopen.context_eq]
    exact ⟨first, others, htype, by rwa [← hclose.token_eq], hinner⟩

/-- The sign in front of a simple expression; without one, no sign stands there. -/
theorem gives_simpleExpression_iff_sign {s t : State} (type : DataType) :
    simpleExpression.Gives depth s type t ↔
      ∃ (sign : Option Polarity) (u : State),
        s.Translates (sign.map Polarity.word).toList ((sign.map Polarity.text).getD "") u ∧
        (sign = none → u.token.kind ≠ .sign .plus ∧ u.token.kind ≠ .sign .minus) ∧
        (chain .sum term).Gives depth u type t := by
  simp only [simpleExpression, gives_bind, gives_accept, gives_ite, gives_write_iff, gives_discard]
  constructor
  · rintro ⟨seen, u, ⟨hkind, htake, rfl⟩ | ⟨hminus, rfl, rfl⟩, h⟩
    · obtain ⟨-, _, v, hwrite, hchain⟩ | ⟨hfalse, -⟩ := h
      · have htaken := State.Translates.taken htake
        rw [(Token.word_eq_sign_iff ..).2 hkind] at htaken
        exact ⟨some .minus, v, htaken.trans hwrite, by simp, hchain⟩
      · exact absurd rfl hfalse
    · obtain ⟨hfalse, -⟩ | ⟨-, _, v, hplus, hchain⟩ := h
      · cases hfalse
      · obtain ⟨_, ⟨hkind, htake, -⟩ | ⟨hplus, rfl, -⟩⟩ := hplus
        · have htaken := State.Translates.taken htake
          rw [(Token.word_eq_sign_iff ..).2 hkind] at htaken
          exact ⟨some .plus, v, htaken, by simp, hchain⟩
        · exact ⟨none, v, State.Translates.refl v, fun _ => ⟨hplus, hminus⟩, hchain⟩
  · rintro ⟨sign, u, htranslates, hnone, hchain⟩
    cases sign with
    | none =>
      obtain rfl : u = s := by simpa [State.translates_nil_iff] using htranslates
      obtain ⟨hplus, hminus⟩ := hnone rfl
      exact ⟨false, u, Or.inr ⟨hminus, rfl, rfl⟩,
        Or.inr ⟨by simp, (), u, ⟨false, Or.inr ⟨hplus, rfl, rfl⟩⟩, hchain⟩⟩
    | some polarity =>
      cases polarity with
      | plus =>
        have htaken : s.Translates [.sign .plus] "" u := htranslates
        rw [State.translates_take_iff, Token.word_eq_sign_iff] at htaken
        refine ⟨false, s, Or.inr ⟨by simp [htaken.1], rfl, rfl⟩,
          Or.inr ⟨by simp, (), u, ?_, hchain⟩⟩
        exact ⟨true, Or.inl ⟨htaken.1, htaken.2, rfl⟩⟩
      | minus =>
        have hsplit : s.Translates ([.sign .minus] ++ []) ("" ++ "-") u := htranslates
        rw [State.translates_append_iff] at hsplit
        obtain ⟨v, htaken, hwritten⟩ := hsplit
        rw [State.translates_take_iff, Token.word_eq_sign_iff] at htaken
        exact ⟨true, v, Or.inl ⟨htaken.1, htaken.2, rfl⟩, Or.inl ⟨rfl, (), u, hwritten, hchain⟩⟩

theorem recognizes_simpleExpression (hfactor : Recognizes depth factor Phrases.factors) :
    Recognizes depth simpleExpression Phrases.simples := by
  intro s hs type t
  have hterm := recognizes_term hfactor
  rw [gives_simpleExpression_iff_sign]
  constructor
  · rintro ⟨sign, u, hsign, -, hchain⟩
    have hu : u.remaining < depth := Nat.lt_of_le_of_lt hsign.remaining_le hs
    rw [gives_chain_iff hterm (fun phrase op => phrase.stopsBefore_sum op) hu, hsign.context_eq]
      at hchain
    obtain ⟨first, others, htype, hfits, hnone, hlast, htranslates⟩ := hchain
    rw [terms_chainSpelling, terms_chainText] at htranslates
    rw [terms_chainFits] at hfits
    refine ⟨.chain sign first others, ?_, ⟨hnone, hlast⟩, ?_⟩
    · exact (Simple.type?_eq_some_iff _ sign first others type).2 ⟨htype, hfits⟩
    · simpa [Phrases.simples, Phrases.terms, Simple.spelling, Simple.text, String.append_assoc]
        using hsign.trans htranslates
  · rintro ⟨⟨sign, first, others⟩, htype, ⟨hnone, hlast⟩, htranslates⟩
    obtain ⟨htype, hfits⟩ := (Simple.type?_eq_some_iff _ sign first others type).1 htype
    have hall : s.Translates
        ((sign.map Polarity.word).toList ++ (first.spelling ++ termsSpelling others))
        ((sign.map Polarity.text).getD "" ++
          (first.text s.context ++ termsText s.context others)) t := by
      simpa [Phrases.simples, Simple.spelling, Simple.text, String.append_assoc] using htranslates
    rw [State.translates_append_iff] at hall
    obtain ⟨u, hsign, hchain⟩ := hall
    have hu : u.remaining < depth := Nat.lt_of_le_of_lt hsign.remaining_le hs
    refine ⟨sign, u, hsign, ?_, ?_⟩
    · intro _
      obtain ⟨word, words, hspelling, hopens⟩ := first.spelling_eq_cons
      rw [hspelling, List.cons_append] at hchain
      have hkind : u.token.kind = word.1 := congrArg Prod.fst hchain.token_word
      rw [hkind]
      exact ⟨by rintro heq; simp [heq, opensFactor] at hopens,
        by rintro heq; simp [heq, opensFactor] at hopens⟩
    · rw [gives_chain_iff hterm (fun phrase op => phrase.stopsBefore_sum op) hu, hsign.context_eq]
      refine ⟨first, others, htype, ?_, hnone, hlast, ?_⟩
      · rwa [terms_chainFits]
      · rwa [terms_chainSpelling, terms_chainText]

/-- A simple expression in parentheses of its own. -/
theorem gives_side_iff
    (hfactor : Recognizes depth factor Phrases.factors)
    {s t : State} (hs : s.remaining < depth) (type : DataType) :
    (∃ u v, s.Translates [] "(" u ∧ simpleExpression.Gives depth u type v ∧ v.Translates [] ")" t) ↔
      ∃ side : Simple,
        side.type? s.context = some type ∧
        side.StopsBefore t.token.kind ∧
        s.Translates side.spelling ("(" ++ side.text s.context ++ ")") t := by
  have hsimple := recognizes_simpleExpression hfactor
  constructor
  · rintro ⟨u, v, hopen, hside, hclose⟩
    have hu : u.remaining < depth := Nat.lt_of_le_of_lt hopen.remaining_le hs
    rw [hsimple u hu, hopen.context_eq] at hside
    obtain ⟨side, htype, hstops, htranslates⟩ := hside
    refine ⟨side, htype, ?_, ?_⟩
    · rw [hclose.token_eq]
      exact hstops
    · simpa [Phrases.simples] using (hopen.trans htranslates).trans hclose
  · rintro ⟨side, htype, hstops, htranslates⟩
    have hall : s.Translates ([] ++ side.spelling ++ []) ("(" ++ side.text s.context ++ ")") t := by
      simpa using htranslates
    rw [State.translates_append_iff] at hall
    obtain ⟨v, hall, hclose⟩ := hall
    rw [State.translates_append_iff] at hall
    obtain ⟨u, hopen, hinner⟩ := hall
    have hu : u.remaining < depth := Nat.lt_of_le_of_lt hopen.remaining_le hs
    refine ⟨u, v, hopen, ?_, hclose⟩
    rw [hsimple u hu, hopen.context_eq]
    exact ⟨side, htype, by rwa [← hclose.token_eq], hinner⟩

theorem recognizes_expression (hfactor : Recognizes depth factor Phrases.factors) :
    Recognizes depth expression Phrases.expressions := by
  intro s hs type t
  simp only [expression, gives_bind, gives_operator_iff, gives_ite, gives_write_iff,
    gives_requireCompatible, gives_pure]
  constructor
  · rintro ⟨_, u, hopen, left, v, hleft, _, w, hclose, seen, x, hoperator, h⟩
    obtain ⟨side, htype, hstops, hside⟩ :=
      (gives_side_iff hfactor hs left).1 ⟨u, v, hopen, hleft, hclose⟩
    obtain ⟨op, hop, rfl⟩ | ⟨hnone, rfl, rfl⟩ := hoperator
    · obtain ⟨-, _, y, hopen', right, z, hright, _, z', ⟨hcompatible, rfl⟩, _, t', hclose',
        rfl, rfl⟩ | ⟨hfalse, -⟩ := h
      · have hw : w.remaining < depth := Nat.lt_of_le_of_lt hside.remaining_le hs
        have hx : x.remaining < depth := Nat.lt_of_le_of_lt hop.remaining_le hw
        obtain ⟨other, htype', hstops', hother⟩ :=
          (gives_side_iff hfactor hx right).1 ⟨y, z', hopen', hright, hclose'⟩
        have hleft := hside.trans hop
        rw [hleft.context_eq] at htype' hother
        have hall := hleft.trans hother
        rw [← hclose'.types_eq, hall.types_eq] at hcompatible
        refine ⟨.relation side op other, ?_, hstops', ?_⟩
        · exact (Expression.type?_relation_eq_some_iff _ _ _ op _).2
            ⟨left, right, htype, htype', hcompatible, rfl⟩
        · simpa [Phrases.expressions, Expression.spelling, Expression.text, String.append_assoc]
            using hall
      · exact absurd rfl hfalse
    · obtain ⟨hfalse, -⟩ | ⟨-, rfl, rfl⟩ := h
      · cases hfalse
      · exact ⟨.simple side, htype, ⟨hnone, hstops⟩, hside⟩
  · rintro ⟨phrase, htype, hstops, htranslates⟩
    cases phrase with
    | simple side =>
      obtain ⟨hnone, hstops⟩ := hstops
      obtain ⟨u, v, hopen, hside, hclose⟩ :=
        (gives_side_iff hfactor hs type).2 ⟨side, htype, hstops, htranslates⟩
      exact ⟨(), u, hopen, type, v, hside, (), t, hclose, false, t, Or.inr ⟨hnone, rfl, rfl⟩,
        Or.inr ⟨by simp, rfl, rfl⟩⟩
    | relation left op right =>
      obtain ⟨first, second, hfirst, hsecond, hcompatible, rfl⟩ :=
        (Expression.type?_relation_eq_some_iff _ _ _ op _).1 htype
      have hall : s.Translates ((left.spelling ++ [op.1.word]) ++ right.spelling)
          ((("(" ++ left.text s.context ++ ")") ++ op.1.text) ++
            ("(" ++ right.text s.context ++ ")")) t := by
        simpa [Phrases.expressions, Expression.spelling, Expression.text, String.append_assoc]
          using htranslates
      rw [State.translates_append_iff] at hall
      obtain ⟨x, hall, hother⟩ := hall
      rw [State.translates_append_iff] at hall
      obtain ⟨w, hside, hop⟩ := hall
      have hcontext : x.context = s.context := (hside.trans hop).context_eq
      have hw : w.remaining < depth := Nat.lt_of_le_of_lt hside.remaining_le hs
      have hx : x.remaining < depth := Nat.lt_of_le_of_lt hop.remaining_le hw
      have hkind : w.token.kind = op.1.kind := (op.1.word_eq_iff _).1 hop.token_word
      obtain ⟨u, v, hopen, hleft, hclose⟩ := (gives_side_iff hfactor hs first).2
        ⟨left, hfirst, by rw [hkind]; exact left.stopsBefore_relation op, hside⟩
      obtain ⟨y, z, hopen', hright, hclose'⟩ := (gives_side_iff hfactor hx second).2
        ⟨right, by rwa [hcontext], hstops, by rwa [hcontext]⟩
      have htypes : z.types = s.types := hclose'.types_eq.symm.trans htranslates.types_eq
      refine ⟨(), u, hopen, first, v, hleft, (), w, hclose, true, x, Or.inl ⟨op, hop, rfl⟩,
        Or.inl ?_⟩
      exact ⟨rfl, (), y, hopen', second, z, hright, (), z, ⟨by rw [htypes]; exact hcompatible, rfl⟩,
        (), t, hclose', rfl, rfl⟩

section Enclosed

variable (hexpression : Recognizes depth expression Phrases.expressions)
include hexpression

theorem gives_expression_iff {s t : State} (hs : s.remaining < depth) (type : DataType) :
    expression.Gives depth s type t ↔
      ∃ e : Expression,
        e.type? s.context = some type ∧
        e.StopsBefore t.token.kind ∧
        s.Translates e.spelling (e.text s.context) t :=
  hexpression s hs type t

theorem context_eq_of_expression
    {s t : State} {type : DataType} (hs : s.remaining < depth)
    (h : expression.Gives depth s type t) : t.context = s.context := by
  rw [hexpression s hs] at h
  obtain ⟨e, -, -, htranslates⟩ := h
  exact htranslates.context_eq

/-- An expression in front of a word that continues no expression. -/
theorem gives_expression_before_iff
    {s t : State} (hs : s.remaining < depth) (word : Word) (hends : EndsExpression word.1)
    (words : List Word) (text : String) (type : DataType) :
    (∃ u, expression.Gives depth s type u ∧ u.Translates (word :: words) text t) ↔
      ∃ e : Expression,
        e.type? s.context = some type ∧
        s.Translates (e.spelling ++ word :: words) (e.text s.context ++ text) t := by
  constructor
  · rintro ⟨u, hgives, hbehind⟩
    rw [hexpression s hs] at hgives
    obtain ⟨e, htype, -, htranslates⟩ := hgives
    exact ⟨e, htype, htranslates.trans hbehind⟩
  · rintro ⟨e, htype, htranslates⟩
    rw [State.translates_append_iff] at htranslates
    obtain ⟨u, hexpr, hbehind⟩ := htranslates
    refine ⟨u, ?_, hbehind⟩
    rw [hexpression s hs]
    refine ⟨e, htype, ?_, hexpr⟩
    rw [hbehind.token_kind]
    exact e.stopsBefore_of_ends hends

/-- An expression between two passages, and a demand on what it is read against. -/
theorem gives_enclosed_iff
    {s t : State} (hs : s.remaining ≤ depth) (first last : Word)
    (hfirst : first.1 ≠ .eof) (hends : EndsExpression last.1) (before behind : List Word)
    (opening closing : String) (type : DataType) (demand : Context → Prop) :
    (∃ u v, s.Translates (first :: before) opening u ∧ expression.Gives depth u type v ∧
        demand v.context ∧ v.Translates (last :: behind) closing t) ↔
      ∃ e : Expression,
        e.type? s.context = some type ∧ demand s.context ∧
        s.Translates ((first :: before) ++ (e.spelling ++ last :: behind))
          (opening ++ (e.text s.context ++ closing)) t := by
  constructor
  · rintro ⟨u, v, hbefore, hgives, hdemand, hbehind⟩
    have hu : u.remaining < depth := Nat.lt_of_lt_of_le (hbefore.remaining_lt hfirst) hs
    rw [context_eq_of_expression hexpression hu hgives, hbefore.context_eq] at hdemand
    obtain ⟨e, htype, htranslates⟩ :=
      (gives_expression_before_iff hexpression hu last hends behind closing type).1
        ⟨v, hgives, hbehind⟩
    rw [hbefore.context_eq] at htype htranslates
    exact ⟨e, htype, hdemand, hbefore.trans htranslates⟩
  · rintro ⟨e, htype, hdemand, htranslates⟩
    rw [State.translates_append_iff] at htranslates
    obtain ⟨u, hbefore, hexpr⟩ := htranslates
    have hu : u.remaining < depth := Nat.lt_of_lt_of_le (hbefore.remaining_lt hfirst) hs
    rw [← hbefore.context_eq] at htype hexpr hdemand
    obtain ⟨v, hgives, hbehind⟩ :=
      (gives_expression_before_iff hexpression hu last hends behind closing type).2
        ⟨e, htype, hexpr⟩
    rw [← context_eq_of_expression hexpression hu hgives] at hdemand
    exact ⟨u, v, hbefore, hgives, hdemand, hbehind⟩

end Enclosed

end Compilation
end Oberon
