import Oberon.Proofs.Lexical.Recognition
import Mathlib.Algebra.BigOperators.Group.List.Basic

/-!
# Comments

What stands between two tokens, said by the delimiters in a text.

**Delimiters.**  `marks` goes through a text from left to right and finds the delimiters `(*` and
`*)`, which do not overlap.  The depth behind some marks is the number of openings less the number
of closings.

**Comments.**  A comment opens with its first mark and ends where its depth is zero for the first
time.  An unclosed one never comes to that depth.

**Main statements.**
* `isTrivia_split`: what is skipped in front of a token is white space and comments, an unclosed
  comment only at the end.
* `startsToken_split`: what follows begins with neither white space nor a comment.
-/

namespace Oberon
namespace Lexical

/-- A delimiter of comments, or a character that belongs to none. -/
inductive Mark
  | opening | closing
  | other (c : Char)
  deriving DecidableEq, Repr

/-- The delimiters and the other characters of a text, from left to right. -/
def marks : List Char → List Mark
  | [] => []
  | '(' :: '*' :: rest => .opening :: marks rest
  | '*' :: ')' :: rest => .closing :: marks rest
  | c :: rest => .other c :: marks rest

/-- How many more comments are open behind a mark than in front of it. -/
def Mark.weight : Mark → Int
  | opening => 1
  | closing => -1
  | other _ => 0

/-- How many more comments are opened than closed. -/
def depth (list : List Mark) : Int := (list.map Mark.weight).sum

/--
A comment with its matching closing delimiter: there, and nowhere before, as many comments are
closed as opened.
-/
structure IsComment (text : List Char) : Prop where
  opens : (marks text).head? = some .opening
  closes : depth (marks text) = 0
  inside : ∀ front, front <+: marks text → front ≠ [] → front ≠ marks text → 0 < depth front

/-- A comment without a matching delimiter. -/
structure IsUnclosed (text : List Char) : Prop where
  opens : (marks text).head? = some .opening
  inside : ∀ front, front <+: marks text → front ≠ [] → 0 < depth front

/-- White space and comments in front of some text; an unclosed comment takes all there is. -/
inductive IsTrivia (behind : List Char) : List Char → Prop
  | nil : IsTrivia behind []
  | blank {c : Char} {text : List Char} :
      Text.isBlank c = true → IsTrivia behind text → IsTrivia behind (c :: text)
  | comment {comment text : List Char} :
      IsComment comment → IsTrivia behind text → IsTrivia behind (comment ++ text)
  | unclosed {comment : List Char} : IsUnclosed comment → behind = [] → IsTrivia behind comment

/-- The text begins with neither white space nor a comment. -/
def StartsToken (text : List Char) : Prop :=
  Stops Text.isBlank text ∧ ∀ rest, text ≠ '(' :: '*' :: rest

/-! ### Marks -/

@[simp] theorem depth_nil : depth [] = 0 := rfl

@[simp] theorem depth_cons (mark : Mark) (list : List Mark) :
    depth (mark :: list) = mark.weight + depth list := by
  simp [depth]

/-- A character that is not the first half of a delimiter. -/
theorem marks_cons
    {c : Char}
    {text : List Char}
    (hopening : c = '(' → Stops (· == '*') text)
    (hclosing : c = '*' → Stops (· == ')') text) :
    marks (c :: text) = .other c :: marks text := by
  rw [marks.eq_def]
  split
  · rename_i heq
    cases heq
  · rename_i heq
    obtain ⟨rfl, rfl⟩ := List.cons.inj heq
    exact absurd (hopening rfl '*' rfl) (by decide)
  · rename_i heq
    obtain ⟨rfl, rfl⟩ := List.cons.inj heq
    exact absurd (hclosing rfl ')' rfl) (by decide)
  · rename_i heq
    obtain ⟨rfl, rfl⟩ := List.cons.inj heq
    rfl

example : marks "(*)*)".toList = [.opening, .other ')', .closing] := by decide

theorem marks_ne_nil (c : Char) (rest : List Char) : marks (c :: rest) ≠ [] := by
  rw [marks.eq_def]
  split <;> simp_all

/-!
### Where comments end

In the middle of a text some comments are open already, and the marks to come close them or do not.
-/

/-- From `level` open comments on, the marks close the last one with their last mark. -/
structure Closes (level : Int) (list : List Mark) : Prop where
  total : level + depth list = 0
  inside : ∀ front, front <+: list → front ≠ list → 0 < level + depth front

/-- The marks never close all comments. -/
def Stays (level : Int) (list : List Mark) :
    Prop :=
  ∀ front, front <+: list → 0 < level + depth front

theorem Closes.nil : Closes 0 [] where
  total := rfl
  inside _ hfront hne := absurd (List.prefix_nil.1 hfront) hne

theorem Closes.cons
    {level : Int}
    {mark : Mark}
    {list : List Mark}
    (hlevel : 0 < level)
    (h : Closes (level + mark.weight) list) :
    Closes level (mark :: list) where
  total := by
    have htotal := h.total
    rw [depth_cons]
    omega
  inside front hfront hne := by
    obtain rfl | ⟨rest, rfl, hrest⟩ := List.prefix_cons_iff.1 hfront
    · simpa using hlevel
    · have hinside := h.inside rest hrest fun heq => hne (by rw [heq])
      rw [depth_cons]
      omega

theorem Stays.cons
    {level : Int}
    {mark : Mark}
    {list : List Mark}
    (hlevel : 0 < level)
    (h : Stays (level + mark.weight) list) :
    Stays level (mark :: list) := by
  intro front hfront
  obtain rfl | ⟨rest, rfl, hrest⟩ := List.prefix_cons_iff.1 hfront
  · simpa using hlevel
  · have hinside := h rest hrest
    rw [depth_cons]
    omega

/-- Where no comment is open there is nothing to close. -/
theorem Closes.eq_nil {list : List Mark} (h : Closes 0 list) : list = [] := by
  by_contra hne
  have hinside := h.inside [] (List.prefix_append [] _) (Ne.symm hne)
  simp at hinside

theorem Closes.isComment {text : List Char} (h : Closes 1 (marks text)) :
    IsComment ('(' :: '*' :: text) where
  opens := rfl
  closes := by
    have htotal := h.total
    rw [marks, depth_cons]
    exact htotal
  inside front hfront hne hwhole := by
    obtain rfl | ⟨rest, rfl, hrest⟩ := List.prefix_cons_iff.1 hfront
    · exact absurd rfl hne
    · have hinside := h.inside rest hrest fun heq => hwhole (by rw [heq, marks])
      rwa [depth_cons]

theorem Stays.isUnclosed {text : List Char} (h : Stays 1 (marks text)) :
    IsUnclosed ('(' :: '*' :: text) where
  opens := rfl
  inside front hfront hne := by
    obtain rfl | ⟨rest, rfl, hrest⟩ := List.prefix_cons_iff.1 hfront
    · exact absurd rfl hne
    · have hinside := h rest hrest
      rwa [depth_cons]

/--
What is skipped from the middle of `level` comments on: their rest and trivia behind them, or all
there is.
-/
def Finishes (level : Nat) (behind skipped : List Char) : Prop :=
  (∃ inner outer, skipped = inner ++ outer ∧ Closes level (marks inner) ∧ IsTrivia behind outer) ∨
    behind = [] ∧ Stays level (marks skipped)

theorem Finishes.of_isTrivia {behind skipped : List Char} (h : IsTrivia behind skipped) :
    Finishes 0 behind skipped :=
  Or.inl ⟨[], skipped, rfl, .nil, h⟩

theorem Finishes.isTrivia {behind skipped : List Char} (h : Finishes 0 behind skipped) :
    IsTrivia behind skipped := by
  obtain ⟨inner, outer, rfl, hinner, houter⟩ | ⟨-, hstays⟩ := h
  · cases inner with
    | nil => exact houter
    | cons c rest => exact absurd hinner.eq_nil (marks_ne_nil c rest)
  · exact absurd (hstays [] (List.prefix_append [] _)) (by simp)

/-- A comment that is opened where none is open. -/
theorem Finishes.comment {behind skipped : List Char} (h : Finishes 1 behind skipped) :
    IsTrivia behind ('(' :: '*' :: skipped) := by
  obtain ⟨inner, outer, rfl, hinner, houter⟩ | ⟨hend, hstays⟩ := h
  · exact .comment hinner.isComment houter
  · exact .unclosed hstays.isUnclosed hend

/-- Inside of comments, a mark in front of what is skipped. -/
theorem Finishes.cons
    {next : Nat}
    {behind skipped : List Char}
    (level : Nat)
    (first : List Char)
    (mark : Mark)
    (hlevel : 0 < level)
    (hnext : (next : Int) = level + mark.weight)
    (hmarks : ∀ text, text <+: skipped → marks (first ++ text) = mark :: marks text)
    (h : Finishes next behind skipped) :
    Finishes level behind (first ++ skipped) := by
  have hpositive : (0 : Int) < level := by omega
  obtain ⟨inner, outer, rfl, hinner, houter⟩ | ⟨hend, hstays⟩ := h
  · refine Or.inl ⟨first ++ inner, outer, by simp, ?_, houter⟩
    rw [hmarks inner (List.prefix_append _ _)]
    exact .cons hpositive (hnext ▸ hinner)
  · refine Or.inr ⟨hend, ?_⟩
    rw [hmarks skipped (List.prefix_refl _)]
    exact .cons hpositive (hnext ▸ hstays)

theorem Stops.of_append
    {p : Char → Bool}
    {text longer : List Char}
    (h : Stops p longer)
    (hfront : text <+: longer) :
    Stops p text := by
  obtain ⟨rest, rfl⟩ := hfront
  cases text with
  | nil => simp [Stops]
  | cons c text => exact h

theorem stops_of_ne
    {c : Char} {text : List Char} (h : ∀ rest, text ≠ c :: rest) :
    Stops (· == c) text := by
  cases text with
  | nil => simp [Stops]
  | cons d rest =>
    refine stops_cons ?_ rest
    simpa using fun heq : d = c => h rest (by rw [heq])

/-- By induction along the text: what is skipped inside of `level` comments. -/
theorem finishes_split (level : Nat) (text : List Char) :
    Finishes level (Trivia.split level text).2 (Trivia.split level text).1 := by
  fun_induction Trivia.split level text with
  | case1 level =>
    cases level with
    | zero => exact .of_isTrivia .nil
    | succ level =>
      refine Or.inr ⟨rfl, fun front hfront => ?_⟩
      obtain rfl := List.prefix_nil.1 hfront
      simp
  | case2 rest ih => exact .of_isTrivia ih.comment
  | case3 c rest _ hblank ih => exact .of_isTrivia (.blank hblank ih.isTrivia)
  | case4 c rest _ hblank => exact .of_isTrivia .nil
  | case5 level rest ih =>
    exact ih.cons (level + 1) ['(', '*'] .opening (by omega) (by simp [Mark.weight]; omega)
      fun _ _ => rfl
  | case6 level rest ih =>
    exact ih.cons (level + 1) ['*', ')'] .closing (by omega) (by simp [Mark.weight]) fun _ _ => rfl
  | case7 level c rest hopening hclosing ih =>
    refine ih.cons (level + 1) [c] (.other c) (by omega) (by simp [Mark.weight])
      fun text htext => ?_
    have hrest : text <+: rest := htext.trans ⟨_, Trivia.split_append _ _⟩
    refine marks_cons (fun hc => ?_) fun hc => ?_
    · exact (stops_of_ne fun behind heq => hopening behind hc heq).of_append hrest
    · exact (stops_of_ne fun behind heq => hclosing behind hc heq).of_append hrest

/-- What is skipped in front of a token is white space and comments. -/
theorem isTrivia_split (text : List Char) :
    IsTrivia (Trivia.split 0 text).2 (Trivia.split 0 text).1 :=
  (finishes_split 0 text).isTrivia

theorem startsToken_split (level : Nat) (text : List Char) :
    StartsToken (Trivia.split level text).2 := by
  fun_induction Trivia.split level text with
  | case4 c rest hopening hblank =>
    refine ⟨stops_cons (by simpa using hblank) rest, fun behind heq => ?_⟩
    obtain ⟨hc, hrest⟩ := List.cons.inj heq
    exact hopening behind hc hrest
  | case1 level => exact ⟨by simp [Stops], by simp⟩
  | _ => assumption

end Lexical
end Oberon
