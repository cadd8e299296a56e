import Oberon.Proofs.Grammar.Statement
import Oberon.Proofs.Translation.Factor

/-!
# The translation of sequences of statements

Statements one behind the other are read up to the token that ends them, and they are read exactly
on the spelling of a well-formed body, provided that each single statement is
(`gives_statements_iff`).  A semicolon behind a statement is taken with it.
-/

namespace Oberon
namespace Compilation

open Oberon.Grammar
open Oberon.Compilation.Action

variable {depth : Nat} {s t : State}

/-- The statement stands between two states, well formed and as long as it can be. -/
def Spans (statement : Statement) (s t : State) : Prop :=
  statement.WellFormed s.context s.scope.result ∧
  statement.StopsBefore t.token.kind ∧
  s.Translates statement.spelling (statement.text s.context) t

/-- The body stands between two states, and the second one is at a token that ends it. -/
def SpansBody (body : Body) (s t : State) : Prop :=
  BodyWellFormed s.context s.scope.result body ∧
  endsSequence t.token.kind = true ∧
  s.Translates (bodySpelling body) (bodyText s.context body) t

/--
From a state with fewer than `depth` tokens to come, statements are read exactly where they stand.
-/
def RecognizesStatements (depth : Nat) : Prop :=
  ∀ s : State, s.remaining < depth → ∀ (a : Unit) (t : State),
    statement.Gives depth s a t ↔ ∃ found, Spans found s t

/-! ### Sequences -/

theorem gives_goesOn_iff (more : Bool) :
    Gives depth (do return !endsSequence (← kind)) s more t ↔
      more = !endsSequence s.token.kind ∧ t = s := by
  rw [gives_kind_bind, gives_pure]

theorem remaining_designator {d : Designator} (h : designator.Gives depth s d t) :
    t.remaining < s.remaining := by
  rw [designator, gives_bind] at h
  obtain ⟨found, u, hname, h⟩ := h
  rw [gives_designatorName_iff] at hname
  obtain ⟨name, -, hname⟩ := hname
  obtain ⟨first, words, hspelling⟩ := name.spelling_eq_cons
  rw [hspelling] at hname
  exact Nat.lt_of_le_of_lt h.remaining_le (hname.remaining_lt (by simp [Word.identifier]))

/-- A statement takes tokens, but for the empty one in front of a semicolon. -/
theorem remaining_statement {a : Unit} (h : statement.Gives depth s a t) :
    t.remaining < s.remaining ∨ (s.token.kind = .sign .semicolon ∧ t = s) := by
  cases depth with
  | zero => exact absurd h (not_gives_call_zero _ _)
  | succ depth =>
    have htaken : ∀ {next : Unit → Action Unit}, s.token.kind ≠ .eof →
        Gives depth (take >>= next) s a t → t.remaining < s.remaining := by
      intro next hkind h
      rw [gives_bind] at h
      obtain ⟨_, u, htake, h⟩ := h
      rw [gives_take] at htake
      exact Nat.lt_of_le_of_lt h.remaining_le (remaining_takeToken_lt htake hkind)
    rw [statement, gives_call] at h
    change statementRule.Gives depth s a t at h
    rw [statementRule, gives_kind_bind] at h
    split at h
    case h_1 =>
      rw [designatorStatement, gives_bind] at h
      obtain ⟨_, u, htarget, h⟩ := h
      rw [gives_textOf] at htarget
      obtain ⟨v, htarget, -, rfl⟩ := htarget
      have hlt := remaining_designator htarget
      exact Or.inl (Nat.lt_of_le_of_lt h.remaining_le hlt)
    case h_11 hkind =>
      rw [gives_pure] at h
      exact Or.inr ⟨hkind, h.2⟩
    case h_12 => simp at h
    -- All other statements take their keyword first.
    all_goals
      rename_i hkind
      exact Or.inl (htaken (by simp [hkind]) h)

/-- Every turn of a sequence takes a token. -/
theorem sequence_advances
    (s u v : State)
    (hmore : Gives depth (do return !endsSequence (← kind)) s true u)
    (hbody : Gives depth (do statement; discard (accept (.sign .semicolon))) u () v) :
    v.remaining < s.remaining := by
  rw [gives_goesOn_iff] at hmore
  obtain ⟨-, rfl⟩ := hmore
  simp only [gives_bind, gives_discard, gives_accept_sign_iff] at hbody
  obtain ⟨_, w, hstatement, _, ⟨hsemicolon, -⟩ | ⟨hkind, rfl, -⟩⟩ := hbody
  · have hw := hsemicolon.remaining_lt (by decide)
    exact Nat.lt_of_lt_of_le hw hstatement.remaining_le
  · obtain hlt | ⟨hsemicolon, rfl⟩ := remaining_statement hstatement
    · exact hlt
    · exact absurd hsemicolon hkind

/-- Only an empty body stands in front of a token that ends it. -/
theorem State.Translates.body_eq_nil
    {c : Context} {result : DataType} {body : Body} {text : String}
    (h : s.Translates (bodySpelling body) text t) (hbody : BodyWellFormed c result body)
    (hends : endsSequence s.token.kind = true) : body = [] := by
  cases body with
  | nil => rfl
  | cons link others =>
    obtain ⟨word, words, hspelling, hopens⟩ := bodySpelling_eq_cons hbody
    rw [hspelling] at h
    rw [h.token_kind, endsSequence_of_opensStatement hopens] at hends
    cases hends

/-- In front of what may follow it in a body, a statement ends. -/
theorem State.Translates.stopsBefore
    {c : Context} {result : DataType} {body : Body} {text : String} {found : Statement}
    (h : s.Translates (bodySpelling body) text t) (hbody : BodyWellFormed c result body)
    (hends : endsSequence t.token.kind = true) (hjoins : found.Joins body) :
    found.StopsBefore s.token.kind := by
  cases body with
  | nil =>
    rw [bodySpelling] at h
    rw [h.token_eq] at hends
    obtain ⟨hexpression, hassign⟩ := endsExpression_of_endsSequence hends
    exact found.stopsBefore_of_joins hexpression hassign (fun _ => hends) hjoins
  | cons link others =>
    obtain ⟨word, words, hspelling, hopens⟩ := bodySpelling_eq_cons hbody
    rw [hspelling] at h
    rw [← h.token_kind] at hopens
    obtain ⟨hexpression, hassign⟩ := endsExpression_of_opensStatement hopens
    exact found.stopsBefore_of_joins hexpression hassign (fun hnil => by cases hnil) hjoins

/--
A semicolon behind a statement is taken with it, also where a body gives it to an empty statement.
-/
theorem exists_rest_of_body
    (depth : Nat)
    {c : Context}
    {result : DataType}
    {semicolon : Bool}
    {others : Body}
    {u v : State}
    (hothers : BodyWellFormed c result others)
    (hends : endsSequence t.token.kind = true)
    (hsemicolon : u.Translates (semicolonSpelling semicolon) "" v)
    (htranslates : v.Translates (bodySpelling others) (bodyText c others) t) :
    ∃ (seen : Bool) (rest : Body) (w : State),
      (accept (.sign .semicolon)).Gives depth u seen w ∧
      u.Translates (semicolonSpelling seen) "" w ∧
      rest.length ≤ others.length ∧
      BodyWellFormed c result rest ∧
      w.Translates (bodySpelling rest) (bodyText c rest) t := by
  simp only [gives_accept_sign_iff]
  cases semicolon with
  | true =>
    exact ⟨true, others, v, Or.inl ⟨hsemicolon, rfl⟩, hsemicolon, Nat.le_refl _, hothers,
      htranslates⟩
  | false =>
    obtain rfl : v = u := by
      simpa [semicolonSpelling, State.translates_nil_iff] using hsemicolon
    by_cases hkind : v.token.kind = .sign .semicolon
    · cases others with
      | nil =>
        rw [bodySpelling] at htranslates
        rw [htranslates.token_eq, hkind] at hends
        cases hends
      | cons link rest =>
        obtain ⟨next, semicolon⟩ := link
        rw [BodyWellFormed] at hothers
        obtain ⟨-, hjoins, hrest⟩ := hothers
        have hempty : next = .empty := by
          by_contra hne
          obtain ⟨word, words, hspelling, -, hword⟩ := next.spelling_eq_cons hne
          rw [bodySpelling, hspelling, List.cons_append, List.cons_append] at htranslates
          exact hword (by rw [← htranslates.token_kind, hkind])
        subst hempty
        obtain rfl | hjoins := hjoins
        · obtain ⟨w, htaken, _, htranslates, rfl⟩ := htranslates.cut
            [([.sign .semicolon], ""), (bodySpelling rest, bodyText c rest)]
            (by simp [bodySpelling, Statement.spelling, semicolonSpelling])
            (by simp [bodyText, Statement.text])
          exact ⟨true, rest, w, Or.inl ⟨htaken, rfl⟩, htaken, Nat.le_succ _, hrest, htranslates⟩
        · exact hjoins.elim
    · exact ⟨false, others, v, Or.inr ⟨hkind, rfl, rfl⟩, .refl v, Nat.le_refl _, hothers,
        htranslates⟩

/-- In front of its semicolon, or of what else follows it in a body, a statement ends. -/
theorem stopsBefore_of_body
    {c : Context}
    {result : DataType}
    {found : Statement}
    {semicolon : Bool}
    {others : Body}
    {u v : State}
    (hjoins : semicolon = true ∨ found.Joins others)
    (hothers : BodyWellFormed c result others)
    (hends : endsSequence t.token.kind = true)
    (hsemicolon : u.Translates (semicolonSpelling semicolon) "" v)
    (htranslates : v.Translates (bodySpelling others) (bodyText c others) t) :
    found.StopsBefore u.token.kind := by
  cases semicolon with
  | true =>
    rw [hsemicolon.token_kind]
    exact found.stopsBefore_semicolon
  | false =>
    obtain rfl : v = u := by
      simpa [semicolonSpelling, State.translates_nil_iff] using hsemicolon
    exact htranslates.stopsBefore hothers hends (by simpa using hjoins)

section Rounds

variable (hstatement : RecognizesStatements depth) (hs : s.remaining < depth)
include hstatement hs

/-- Statements that are read one behind the other are a body; the induction is on the turns. -/
theorem exists_body_of_rounds
    (h : Rounds depth (do return !endsSequence (← kind))
      (do statement; discard (accept (.sign .semicolon))) s t) :
    ∃ body, SpansBody body s t := by
  induction h with
  | @last s t hmore =>
    rw [gives_goesOn_iff] at hmore
    obtain ⟨hends, rfl⟩ := hmore
    refine ⟨[], by rw [BodyWellFormed]; trivial, by simpa using hends, ?_⟩
    rw [bodySpelling, bodyText]
    exact .refl t
  | @again s t u v hmore hbody hrest ih =>
    rw [gives_goesOn_iff] at hmore
    obtain ⟨-, rfl⟩ := hmore
    simp only [gives_bind, gives_discard, gives_accept_sign_iff] at hbody
    obtain ⟨_, w, hgives, semicolon, hsemicolon⟩ := hbody
    rw [hstatement u hs] at hgives
    obtain ⟨found, hfound, hstops, htranslates⟩ := hgives
    have hbehind : w.Translates (semicolonSpelling semicolon) "" v ∧
        (semicolon = false → w.token.kind ≠ .sign .semicolon ∧ v = w) := by
      obtain ⟨htaken, rfl⟩ | ⟨hkind, rfl, rfl⟩ := hsemicolon
      · exact ⟨htaken, by simp⟩
      · exact ⟨.refl v, fun _ => ⟨hkind, rfl⟩⟩
    have hall := htranslates.trans hbehind.1
    obtain ⟨body, hbody, hends, hothers⟩ := ih (Nat.lt_of_le_of_lt hall.remaining_le hs)
    rw [hall.context_eq, hall.scope_eq] at hbody
    rw [hall.context_eq] at hothers
    refine ⟨(found, semicolon) :: body, ?_, hends, ?_⟩
    · rw [BodyWellFormed]
      refine ⟨hfound, ?_, hbody⟩
      cases semicolon with
      | true => exact Or.inl rfl
      | false =>
        obtain ⟨hkind, rfl⟩ := hbehind.2 rfl
        refine Or.inr (found.joins_of_stopsBefore hkind (fun hclosing => ?_) hstops)
        exact hothers.body_eq_nil hbody hclosing
    · rw [bodySpelling, bodyText]
      simpa using hall.trans hothers

/--
A body is read statement by statement.  The induction is on its length, since a semicolon is taken
by the statement in front of it also where the body gives it to an empty statement.
-/
theorem rounds_of_body {body : Body} (h : SpansBody body s t) :
    Rounds depth (do return !endsSequence (← kind))
      (do statement; discard (accept (.sign .semicolon))) s t := by
  obtain ⟨hbody, hends, htranslates⟩ := h
  induction hlength : body.length using Nat.strong_induction_on generalizing s body with
  | _ length ih =>
    cases body with
    | nil =>
      obtain rfl : t = s := by
        simpa [bodySpelling, bodyText, State.translates_nil_iff] using htranslates
      refine .last ?_
      rw [gives_goesOn_iff]
      exact ⟨by simp [hends], rfl⟩
    | cons link others =>
      obtain ⟨found, semicolon⟩ := link
      obtain ⟨word, words, hspelling, hopens⟩ := bodySpelling_eq_cons hbody
      have hfirst : s.token.kind = word.1 := by
        rw [hspelling] at htranslates
        exact htranslates.token_kind
      have hmore : Gives depth (do return !endsSequence (← kind)) s true s := by
        rw [gives_goesOn_iff, hfirst, endsSequence_of_opensStatement hopens]
        exact ⟨rfl, rfl⟩
      rw [BodyWellFormed] at hbody
      obtain ⟨hfound, hjoins, hothers⟩ := hbody
      obtain ⟨w, hstatement', v, hsemicolon, _, hbehind, rfl⟩ := htranslates.cut
        [(found.spelling, found.text s.context), (semicolonSpelling semicolon, ""),
          (bodySpelling others, bodyText s.context others)]
        (by simp [bodySpelling]) (by simp [bodyText])
      have hgives : statement.Gives depth s () w := by
        rw [hstatement s hs]
        exact ⟨found, hfound, stopsBefore_of_body hjoins hothers hends hsemicolon hbehind,
          hstatement'⟩
      obtain ⟨seen, rest, x, haccept, htaken, hle, hrest, hbehind⟩ :=
        exists_rest_of_body depth hothers hends hsemicolon hbehind
      have hall := hstatement'.trans htaken
      rw [← hall.context_eq, ← hall.scope_eq] at hrest
      rw [← hall.context_eq] at hbehind
      refine .again hmore (v := x) ?_ ?_
      · simp only [gives_bind, gives_discard]
        exact ⟨(), w, hgives, seen, haccept⟩
      · refine ih rest.length ?_ (Nat.lt_of_le_of_lt hall.remaining_le hs) hrest hbehind rfl
        rw [← hlength, List.length_cons]
        exact Nat.lt_succ_of_le hle

/-- Statements are read up to the token that ends them. -/
theorem gives_statements_iff (a : Unit) :
    statements.Gives depth s a t ↔ ∃ body, SpansBody body s t := by
  rw [statements, gives_repeatWhile_iff sequence_advances]
  constructor
  · exact exists_body_of_rounds hstatement hs
  · rintro ⟨body, h⟩
    exact rounds_of_body hstatement hs h

end Rounds

end Compilation
end Oberon
