import Oberon.Proofs.Grammar.Statement
import Oberon.Proofs.Target.Legible

/-!
# Brackets and quotes of C texts

A quoted run goes from a quote to the next quote of its kind.  Without its quoted runs, a text is
well nested if each of its brackets has a partner of its kind and what stands between partners is
well nested.  `openedBy` reads the brackets of a text one behind the other, and keeps those that are
still open.

**Nested texts.**  `Nested` builds a text from characters, quoted runs and pairs of brackets, all on
one line or not.  The pieces of a compiled text are nested one by one, and `Nested.unquoted?` is
what follows for the text without its quoted runs.

**Main results.**
* `WellNested.openedBy`: a well nested text opens as many brackets as it closes, whatever is open in
  front of it.
* `Expression.nested`, `bodyNested`: the texts of expressions and statements are nested.
-/

namespace Oberon
namespace Target

/-! ### Quotes -/

/--
The text without its quoted runs, from inside a run with the given mark or from outside; nothing if
a run has no end.
-/
def unquotedFrom : Option Char → List Char → Option (List Char)
  | none, [] => some []
  | some _, [] => none
  | none, c :: rest =>
      if c = '"' ∨ c = '\'' then unquotedFrom (some c) rest
        else (unquotedFrom none rest).map (c :: ·)
  | some mark, c :: rest =>
    if c = mark then unquotedFrom none rest else unquotedFrom (some mark) rest

/-- The text without its quoted runs. -/
def unquoted? (text : List Char) : Option (List Char) := unquotedFrom none text

example : unquoted? "a(\"'(\")']'".toList = some "a()".toList := by decide

example : unquoted? "a'(".toList = none := by decide

theorem unquoted?_quoted {text : List Char} (h : IsQuoted text) (rest : List Char) :
    unquoted? (text ++ rest) = unquoted? rest := by
  obtain ⟨mark, more, hmark, hmore, rfl⟩ := h
  have hrun : ∀ more : List Char, (∀ c ∈ more, c ≠ mark) →
      unquotedFrom (some mark) (more ++ mark :: rest) = unquotedFrom none rest := by
    intro more hmore
    induction more with
    | nil => simp [unquotedFrom]
    | cons c more ih =>
      rw [List.cons_append, unquotedFrom, if_neg (hmore c List.mem_cons_self),
        ih fun d hd => hmore d (List.mem_cons_of_mem _ hd)]
  rw [unquoted?, List.append_assoc, List.cons_append, unquotedFrom, if_pos hmark]
  exact hrun more hmore

/-! ### Brackets -/

/-- The partner of an opening bracket. -/
def closing? : Char → Option Char
  | '(' => some ')'
  | '[' => some ']'
  | '\x7b' => some '\x7d'
  | _ => none

/-- The closing brackets. -/
def isClosing (c : Char) : Bool := c == ')' || c == ']' || c == '\x7d'

/-- Every bracket has its partner, and the text between partners is well nested. -/
inductive WellNested : List Char → Prop
  | nil : WellNested []
  | char
      {c : Char}
      {rest : List Char}
      (hopening : closing? c = none)
      (hclosing : isClosing c = false)
      (hrest : WellNested rest) :
      WellNested (c :: rest)
  | pair
      {opening closing : Char}
      {inner rest : List Char}
      (hpair : closing? opening = some closing)
      (hinner : WellNested inner)
      (hrest : WellNested rest) :
      WellNested (opening :: inner ++ closing :: rest)

/--
The brackets that close what is open behind a character; nothing if it closes a bracket that is not
the last open one.
-/
def openedBehind (opened : List Char) (c : Char) : Option (List Char) :=
  match closing? c with
  | some closing => some (closing :: opened)
  | none =>
    if isClosing c then if opened.head? = some c then some opened.tail else none else some opened

/--
The brackets that close what a text leaves open; nothing if one of its closing brackets has no
partner.
-/
def openedBy (text : List Char) : Option (List Char) := text.foldlM openedBehind []

example : openedBy "f(a[".toList = some "])".toList := by decide

example : openedBy "f(a])".toList = none := by decide

theorem openedBehind_closing
    {opening closing : Char}
    (h : closing? opening = some closing)
    (opened : List Char) :
    openedBehind (closing :: opened) closing = some opened := by
  unfold closing? at h
  split at h <;> cases h <;> rfl

/-- A well nested text leaves open what is open in front of it. -/
theorem WellNested.foldlM_openedBehind
    {text : List Char} (h : WellNested text) (opened : List Char) :
    text.foldlM openedBehind opened = some opened := by
  induction h generalizing opened with
  | nil => rfl
  | char hopening hclosing _ ih => simpa [openedBehind, hopening, hclosing] using ih opened
  | @pair opening closing _ _ hpair _ _ ihinner ih =>
    have hopening : openedBehind opened opening = some (closing :: opened) := by
      simp [openedBehind, hpair]
    simp [List.foldlM_append, hopening, ihinner, openedBehind_closing hpair, ih]

/-- No beginning of a well nested text has a closing bracket without a partner. -/
theorem WellNested.exists_openedBy
    {text before : List Char} (h : WellNested text) (hbefore : before <+: text) :
    ∃ opened, openedBy before = some opened := by
  obtain ⟨rest, rfl⟩ := hbefore
  have hwhole := h.foldlM_openedBehind []
  rw [List.foldlM_append, Option.bind_eq_bind, Option.bind_eq_some_iff] at hwhole
  obtain ⟨opened, hopened, -⟩ := hwhole
  exact ⟨opened, hopened⟩

/-! ### Nested texts -/

/-- The character is no bracket and no quote. -/
def isOrdinary (c : Char) : Bool := (closing? c).isNone && !isClosing c && c != '"' && c != '\''

/--
A text of characters, quoted runs and pairs of brackets; if it is not `spread`, outside of quotes it
stays on one line.
-/
inductive Nested (spread : Bool) : List Char → Prop
  | nil : Nested spread []
  | char {c : Char} {rest : List Char} (hc : isOrdinary c = true) (hline : c = '\n' → spread = true)
      (hrest : Nested spread rest) : Nested spread (c :: rest)
  | quoted {text rest : List Char} (htext : IsQuoted text) (hrest : Nested spread rest) :
      Nested spread (text ++ rest)
  | pair
      {opening closing : Char}
      {inner rest : List Char}
      (hpair : closing? opening = some closing)
      (hinner : Nested spread inner)
      (hrest : Nested spread rest) :
      Nested spread (opening :: inner ++ closing :: rest)

namespace Nested

variable {spread : Bool} {text rest : List Char}

theorem append (h : Nested spread text) (hrest : Nested spread rest) :
    Nested spread (text ++ rest) := by
  induction h with
  | nil => exact hrest
  | char hc hline _ ih => exact .char hc hline ih
  | quoted htext _ ih =>
    rw [List.append_assoc]
    exact .quoted htext ih
  | pair hpair hinner _ _ ih =>
    rw [List.append_assoc, List.cons_append]
    exact .pair hpair hinner ih

theorem spreads (h : Nested spread text) : Nested true text := by
  induction h with
  | nil => exact .nil
  | char hc _ _ ih => exact .char hc (fun _ => rfl) ih
  | quoted htext _ ih => exact .quoted htext ih
  | pair hpair _ _ ihinner ih => exact .pair hpair ihinner ih

/-- A text without brackets and quotes. -/
theorem plain
    (text : String)
    (h : text.toList.all (fun c => isOrdinary c && (spread || c != '\n')) = true) :
    Nested spread text.toList := by
  generalize text.toList = chars at h
  induction chars with
  | nil => exact .nil
  | cons c chars ih =>
    simp only [List.all_cons, Bool.and_eq_true, Bool.or_eq_true, bne_iff_ne] at h
    exact .char h.1.1 (fun hnewline => h.1.2.resolve_right (not_not_intro hnewline)) (ih h.2)

theorem round (h : Nested spread text) (hrest : Nested spread rest) :
    Nested spread ('(' :: text ++ ')' :: rest) :=
  .pair rfl h hrest

theorem square (h : Nested spread text) (hrest : Nested spread rest) :
    Nested spread ('[' :: text ++ ']' :: rest) :=
  .pair rfl h hrest

theorem curly (h : Nested spread text) (hrest : Nested spread rest) :
    Nested spread ('\x7b' :: text ++ '\x7d' :: rest) :=
  .pair rfl h hrest

theorem word (h : Lexeme.IsWord text) : Nested spread text := by
  have hname : ∀ c, Lexeme.isNameChar c = true → isOrdinary c = true ∧ c ≠ '\n' := by
    intro c hc
    have hne : ∀ d, Lexeme.isNameChar d = false → c ≠ d := by
      rintro d hd rfl
      rw [hc] at hd
      cases hd
    simp [isOrdinary, closing?, isClosing, hne '(' rfl, hne '[' rfl, hne '\x7b' rfl, hne ')' rfl,
      hne ']' rfl, hne '\x7d' rfl, hne '"' rfl, hne '\'' rfl, hne '\n' rfl]
  have hruns : ∀ (more text : List Char), Lexeme.runsOn text more = true → Nested spread more := by
    intro more
    induction more with
    | nil => exact fun _ _ => .nil
    | cons c more ih =>
      intro text hmore
      rw [Lexeme.runsOn, Bool.and_eq_true] at hmore
      have hc : isOrdinary c = true ∧ c ≠ '\n' := by
        have hcontinues := hmore.1
        simp only [Lexeme.continues, Bool.or_eq_true, Bool.and_eq_true, beq_iff_eq] at hcontinues
        obtain hc | ⟨-, rfl | ⟨rfl | rfl, -⟩⟩ := hcontinues
        · exact hname c hc
        all_goals decide
      exact .char hc.1 (fun hnewline => absurd hnewline hc.2) (ih _ hmore.2)
  obtain ⟨c, more, rfl, hc, hmore⟩ := h
  exact .char (hname c hc).1 (fun hnewline => absurd hnewline (hname c hc).2) (hruns more _ hmore)

theorem of_isQuoted (h : IsQuoted text) : Nested spread text := by
  have hnested := Nested.quoted h (.nil : Nested spread [])
  rwa [List.append_nil] at hnested

/-- Without its quoted runs a nested text is well nested. -/
theorem unquoted? (h : Nested spread text) :
    ∃ plain, unquoted? text = some plain ∧ WellNested plain := by
  suffices hrest : ∃ plain, WellNested plain ∧
      ∀ rest, Target.unquoted? (text ++ rest) = (Target.unquoted? rest).map (plain ++ ·) by
    obtain ⟨plain, hplain, hread⟩ := hrest
    have hempty := hread []
    rw [List.append_nil] at hempty
    exact ⟨plain, by simpa [Target.unquoted?, unquotedFrom] using hempty, hplain⟩
  have hordinary : ∀ {c : Char}, ¬ (c = '"' ∨ c = '\'') → ∀ rest,
      Target.unquoted? (c :: rest) = (Target.unquoted? rest).map (c :: ·) := by
    intro c hc rest
    rw [Target.unquoted?, unquotedFrom, if_neg hc, Target.unquoted?]
  induction h with
  | nil => exact ⟨[], .nil, fun rest => by simp⟩
  | @char c rest hc hline hrest ih =>
    obtain ⟨plain, hplain, hread⟩ := ih
    simp only [isOrdinary, Bool.and_eq_true, Option.isNone_iff_eq_none, Bool.not_eq_true',
      bne_iff_ne] at hc
    obtain ⟨⟨⟨hopening, hclosing⟩, hdouble⟩, hsingle⟩ := hc
    refine ⟨c :: plain, .char hopening hclosing hplain, fun rest => ?_⟩
    rw [List.cons_append, hordinary (by simp [hdouble, hsingle]), hread, Option.map_map]
    rfl
  | @quoted text rest htext hrest ih =>
    obtain ⟨plain, hplain, hread⟩ := ih
    refine ⟨plain, hplain, fun rest => ?_⟩
    rw [List.append_assoc, unquoted?_quoted htext, hread]
  | @pair opening closing inner rest hpair hinner hrest ihinner ih =>
    obtain ⟨plain, hplain, hread⟩ := ihinner
    obtain ⟨more, hmore, hbehind⟩ := ih
    have hmarks : ¬ (opening = '"' ∨ opening = '\'') ∧ ¬ (closing = '"' ∨ closing = '\'') := by
      unfold closing? at hpair
      split at hpair <;> cases hpair <;> decide
    refine ⟨opening :: plain ++ closing :: more, .pair hpair hplain hmore, fun rest => ?_⟩
    rw [List.append_assoc, List.cons_append, hordinary hmarks.1, hread, List.cons_append,
      hordinary hmarks.2, hbehind]
    simp [Option.map_map, Function.comp_def]

end Nested

/--
Behind an open curly bracket and a nested text, the text closes the bracket and is nested from there
on.
-/
def ClosesCurly (text : List Char) : Prop :=
  ∀ inner, Nested true inner → Nested true ('\x7b' :: inner ++ text)

namespace ClosesCurly

variable {text : List Char}

theorem last (h : Nested true text) : ClosesCurly ('\x7d' :: text) :=
  fun _ hinner => .curly hinner h

/-- A bracket that is closed, and another one that is opened in its place. -/
theorem reopen
    {between inner : List Char}
    (hbetween : Nested true between)
    (hinner : Nested true inner)
    (h : ClosesCurly text) :
    ClosesCurly ('\x7d' :: between ++ '\x7b' :: inner ++ text) := by
  intro front hfront
  have hrest := Nested.curly hfront (hbetween.append (h inner hinner))
  simpa using hrest

end ClosesCurly

end Target

namespace Grammar

open Target

/-! ### Expressions -/

theorem nested_operator (op : Operator) : Nested false op.text.toList := by
  cases op <;> exact .plain _ (by decide)

theorem Literal.nested {l : Literal} (h : l.word.Legible) : Nested false l.lexeme.toList := by
  obtain ⟨kind, lexeme⟩ := l
  have hnumeral : IsNumeral lexeme.toList → Nested false lexeme.toList := fun h => .word h.isWord
  cases kind with
  | number numeral => exact hnumeral h
  | char => exact Or.elim h hnumeral .of_isQuoted
  | string => exact .of_isQuoted h

theorem nested_mangle
    {module name : String}
    (hmodule : Alphanumeric module.toList)
    (hname : Alphanumeric name.toList) :
    Nested false (mangle module name).toList :=
  .word (isWord_underscore hmodule hname).1

theorem Function.nested
    {text : String}
    (argument : Option DataType)
    (h : Nested false text.toList)
    (f : Function) :
    Nested false (f.text argument text).toList := by
  have hcall : ∀ name : String, Nested false name.toList →
      Nested false (name ++ "(" ++ text ++ ")").toList := by
    intro name hname
    simpa using hname.append (Nested.round h .nil)
  have hgroup := Nested.round h .nil
  cases f with
  | abs =>
    rw [Function.text]
    split
    · exact hcall "fabs" (.plain _ (by decide))
    · exact hcall "abs" (.plain _ (by decide))
  | odd => simpa [Function.text] using Nested.round (hgroup.append (.plain " & 1" (by decide))) .nil
  | ord =>
    simpa [Function.text]
      using Nested.round ((Nested.round (.plain "int" (by decide)) .nil).append hgroup) .nil
  | chr =>
    simpa [Function.text]
      using Nested.round ((Nested.round (.plain "char" (by decide)) .nil).append hgroup) .nil
  | floor =>
    have hfloor := (Nested.plain "floor" (by decide)).append hgroup
    simpa [Function.text]
      using Nested.round ((Nested.round (.plain "long" (by decide)) .nil).append hfloor) .nil

section Texts

variable {c : Context}

mutual

theorem Expression.nested (hc : c.Legible) :
    ∀ e : Expression, (∀ word ∈ e.spelling, word.Legible) → Nested false (e.text c).toList
  | .simple side, h => by
    rw [Expression.spelling] at h
    simpa [Expression.text] using Nested.round (side.nested hc h) .nil
  | .relation left op right, h => by
    rw [Expression.spelling] at h
    simp only [List.mem_append, List.mem_cons] at h
    have hleft := left.nested hc fun word hword => h word (Or.inl hword)
    have hright := right.nested hc fun word hword => h word (Or.inr (Or.inr hword))
    simpa [Expression.text]
      using Nested.round hleft ((nested_operator op.1).append (Nested.round hright .nil))

theorem Simple.nested (hc : c.Legible) :
    ∀ side : Simple, (∀ word ∈ side.spelling, word.Legible) → Nested false (side.text c).toList
  | .chain sign first others, h => by
    rw [Simple.spelling] at h
    simp only [List.mem_append] at h
    have hfirst := first.nested hc fun word hword => h word (Or.inl (Or.inr hword))
    have hothers := termsNested hc others fun word hword => h word (Or.inr hword)
    have hsign : Nested false ((sign.map Polarity.text).getD "").toList := by
      obtain _ | _ | _ := sign <;> exact .plain _ (by decide)
    simpa [Simple.text] using hsign.append (hfirst.append hothers)

theorem termsNested (hc : c.Legible) :
    ∀ others : List (Operator.At .sum × Term), (∀ word ∈ termsSpelling others, word.Legible) →
      Nested false (termsText c others).toList
  | [], _ => by
    rw [termsText]
    exact .nil
  | (op, term) :: others, h => by
    rw [termsSpelling] at h
    simp only [List.mem_append, List.mem_cons] at h
    have hterm := term.nested hc fun word hword => h word (by simp [hword])
    have hothers := termsNested hc others fun word hword => h word (by simp [hword])
    simpa [termsText] using (nested_operator op.1).append (hterm.append hothers)

theorem Term.nested (hc : c.Legible) :
    ∀ term : Term, (∀ word ∈ term.spelling, word.Legible) → Nested false (term.text c).toList
  | .chain first others, h => by
    rw [Term.spelling] at h
    simp only [List.mem_append] at h
    have hfirst := first.nested hc fun word hword => h word (Or.inl hword)
    have hothers := factorsNested hc others fun word hword => h word (Or.inr hword)
    simpa [Term.text] using Nested.round (hfirst.append hothers) .nil

theorem factorsNested (hc : c.Legible) :
    ∀ others : List (Operator.At .product × Factor),
      (∀ word ∈ factorsSpelling others, word.Legible) → Nested false (factorsText c others).toList
  | [], _ => by
    rw [factorsText]
    exact .nil
  | (op, factor) :: others, h => by
    rw [factorsSpelling] at h
    simp only [List.mem_append, List.mem_cons] at h
    have hfactor := factor.nested hc fun word hword => h word (by simp [hword])
    have hothers := factorsNested hc others fun word hword => h word (by simp [hword])
    simpa [factorsText] using (nested_operator op.1).append (hfactor.append hothers)

theorem Factor.nested (hc : c.Legible) :
    ∀ factor : Factor, (∀ word ∈ factor.spelling, word.Legible) →
      Nested false (factor.text c).toList
  | .literal l, h => by
    rw [Factor.text]
    exact l.nested (h l.word (by simp [Factor.spelling]))
  | .group inner, h => by
    rw [Factor.spelling] at h
    simpa [Factor.text] using Nested.round (inner.nested hc
      fun word hword => h word (by simp [hword])) .nil
  | .negation operand, h => by
    rw [Factor.spelling] at h
    have hoperand := operand.nested hc fun word hword => h word (by simp [hword])
    simpa [Factor.text] using (Nested.plain "!" (by decide)).append hoperand
  | .function f argument, h => by
    rw [Factor.spelling] at h
    rw [Factor.text]
    exact f.nested _ (argument.nested hc fun word hword => h word (by simp [hword]))
  | .shift value amount, h => by
    rw [Factor.spelling] at h
    have hvalue := value.nested hc fun word hword => h word (by simp [hword])
    have hamount := amount.nested hc fun word hword => h word (by simp [hword])
    have hmacro :=
      nested_mangle hc.moduleName (show Alphanumeric "ASH".toList by simp [Alphanumeric])
    have harguments :=
      Nested.round (hvalue.append ((Nested.plain ", " (by decide)).append hamount)) .nil
    simpa [Factor.text, Target.shiftMacro, mangle] using hmacro.append harguments
  | .reference target, h => by
    rw [Factor.spelling] at h
    rw [Factor.text]
    exact target.nested hc h
  | .call target arguments, h => by
    rw [Factor.spelling] at h
    have htarget := target.nested hc fun word hword => h word (by simp [hword])
    have harguments := argumentsNested hc arguments fun word hword => h word (by simp [hword])
    simpa [Factor.text] using htarget.append (Nested.round harguments .nil)

theorem Designator.nested (hc : c.Legible) :
    ∀ target : Designator, (∀ word ∈ target.spelling, word.Legible) →
      Nested false (target.text c).toList
  | .mk name indices, h => by
    rw [Designator.spelling] at h
    simp only [List.mem_append] at h
    have hname := (name.isWord_text hc fun word hword => h word (Or.inl hword)).1
    have hindices := indicesNested hc indices fun word hword => h word (Or.inr hword)
    simpa [Designator.text] using (Nested.word hname).append hindices

theorem indicesNested (hc : c.Legible) :
    ∀ indices : List Expression, (∀ word ∈ indicesSpelling indices, word.Legible) →
      Nested false (indicesText c indices).toList
  | [], _ => by
    rw [indicesText]
    exact .nil
  | index :: others, h => by
    rw [indicesSpelling] at h
    have hindex := index.nested hc fun word hword => h word (by simp [hword])
    have hothers := indicesNested hc others fun word hword => h word (by simp [hword])
    simpa [indicesText] using Nested.square hindex hothers

theorem argumentsNested (hc : c.Legible) :
    ∀ arguments : List Expression, (∀ word ∈ argumentsSpelling arguments, word.Legible) →
      Nested false (argumentsText c arguments).toList
  | [], _ => by
    rw [argumentsText]
    exact .nil
  | [argument], h => by
    rw [argumentsSpelling] at h
    rw [argumentsText]
    exact argument.nested hc h
  | argument :: next :: others, h => by
    rw [argumentsSpelling] at h
    · have hargument := argument.nested hc fun word hword => h word (by simp [hword])
      have hothers := argumentsNested hc (next :: others) fun word hword => h word (by simp [hword])
      rw [argumentsText]
      · simpa using hargument.append ((Nested.plain ", " (by decide)).append hothers)
      · simp
    · simp

end

/-! ### Statements -/

theorem Counter.nested (hc : c.Legible) (counter : Counter) (step : Option Expression)
    (h : ∀ word ∈ stepSpelling step, word.Legible) : Nested false (counter.text c step).toList := by
  cases step with
  | none =>
    rw [Counter.text]
    cases counter <;> exact .plain _ (by decide)
  | some step =>
    have hstep := step.nested hc fun word hword => h word (by simp [stepSpelling, hword])
    have hby : Nested false counter.byStep.toList := by cases counter <;> exact .plain _ (by decide)
    simpa [Counter.text] using hby.append hstep

mutual

theorem Statement.nested (hc : c.Legible) :
    ∀ statement : Statement, (∀ word ∈ statement.spelling, word.Legible) →
      Nested true (statement.text c).toList
  | .assignment target value, h => by
    rw [Statement.spelling] at h
    have htarget := target.nested hc fun word hword => h word (by simp [hword])
    have hvalue := value.nested hc fun word hword => h word (by simp [hword])
    have hline := htarget.append ((Nested.plain " = " (by decide)).append hvalue)
    simpa [Statement.text] using hline.spreads.append (.plain ";\n" (by decide))
  | .copy target literal, h => by
    rw [Statement.spelling] at h
    have htarget := target.nested hc fun word hword => h word (by simp [hword])
    have hliteral : IsQuoted literal.toList := h (.stringLiteral, literal) (by simp)
    have harguments :=
      htarget.append ((Nested.plain ", " (by decide)).append (.of_isQuoted hliteral))
    have hcall := Nested.round harguments.spreads (.plain ";\n" (by decide))
    simpa [Statement.text] using (Nested.plain "strcpy" (by decide)).append hcall
  | .call target arguments, h => by
    rw [Statement.spelling] at h
    have htarget := target.nested hc fun word hword => h word (by simp [hword])
    have harguments := argumentsNested hc arguments fun word hword => h word (by simp [hword])
    simpa [Statement.text]
      using htarget.spreads.append (Nested.round harguments.spreads (.plain ";\n" (by decide)))
  | .bareCall target, h => by
    rw [Statement.spelling] at h
    simpa [Statement.text] using (target.nested hc h).spreads.append
      (Nested.round .nil (.plain ";\n" (by decide)))
  | .choice condition body others otherwise, h => by
    rw [Statement.spelling] at h
    have hcondition := condition.nested hc fun word hword => h word (by simp [hword])
    have hbody := bodyNested hc body fun word hword => h word (by simp [hword])
    have hend := otherwiseCloses hc otherwise fun word hword => h word (by simp [hword])
    have hcloses := branchesClose hc others (fun word hword => h word (by simp [hword])) hend
    have hblock := hcloses _ ((Nested.plain "\n" (by decide)).append hbody)
    have hline := Nested.round hcondition.spreads ((Nested.plain " " (by decide)).append hblock)
    simpa [Statement.text] using (Nested.plain "if " (by decide)).append hline
  | .loopWhile condition body, h => by
    rw [Statement.spelling] at h
    have hcondition := condition.nested hc fun word hword => h word (by simp [hword])
    have hbody := bodyNested hc body fun word hword => h word (by simp [hword])
    have hblock :=
      Nested.curly ((Nested.plain "\n" (by decide)).append hbody) (.plain "\n" (by decide))
    have hline := Nested.round hcondition.spreads ((Nested.plain " " (by decide)).append hblock)
    simpa [Statement.text] using (Nested.plain "while " (by decide)).append hline
  | .loopUntil body condition, h => by
    rw [Statement.spelling] at h
    have hbody := bodyNested hc body fun word hword => h word (by simp [hword])
    have hcondition := condition.nested hc fun word hword => h word (by simp [hword])
    have hnot := (Nested.plain "!" (by decide)).append (Nested.round hcondition.spreads .nil)
    have hwhile :=
      (Nested.plain " while " (by decide)).append (Nested.round hnot (.plain ";\n" (by decide)))
    have hblock := Nested.curly ((Nested.plain "\n" (by decide)).append hbody) hwhile
    simpa [Statement.text] using (Nested.plain "do " (by decide)).append hblock
  | .result none, _ => by
    rw [Statement.text]
    exact .plain _ (by decide)
  | .result (some value), h => by
    rw [Statement.spelling] at h
    have hvalue := value.nested hc fun word hword => h word (by simp [hword])
    have hline := (Nested.plain "return " (by decide)).append hvalue
    simpa [Statement.text] using hline.spreads.append (.plain ";\n" (by decide))
  | .count counter target step, h => by
    rw [Statement.spelling] at h
    have htarget := target.nested hc fun word hword => h word (by simp [hword])
    have hcounter := counter.nested hc step fun word hword => h word (by simp [hword])
    simpa [Statement.text] using (htarget.append hcounter).spreads.append (.plain ";\n" (by decide))
  | .assertion condition, h => by
    rw [Statement.spelling] at h
    have hcondition := condition.nested hc fun word hword => h word (by simp [hword])
    have hnot := (Nested.plain "!" (by decide)).append (Nested.round hcondition.spreads .nil)
    have habort : Nested true " abort();\n".toList :=
      (Nested.plain " abort" (by decide)).append (Nested.round .nil (.plain ";\n" (by decide)))
    simpa [Statement.text] using (Nested.plain "if " (by decide)).append (Nested.round hnot habort)
  | .jump jump, _ => by
    rw [Statement.text]
    cases jump <;> exact .plain _ (by decide)
  | .empty, _ => by
    rw [Statement.text]
    exact .nil

theorem bodyNested (hc : c.Legible) :
    ∀ body : List (Statement × Bool), (∀ word ∈ bodySpelling body, word.Legible) →
      Nested true (bodyText c body).toList
  | [], _ => by
    rw [bodyText]
    exact .nil
  | (statement, semicolon) :: others, h => by
    rw [bodySpelling] at h
    have hstatement := statement.nested hc fun word hword => h word (by simp [hword])
    have hothers := bodyNested hc others fun word hword => h word (by simp [hword])
    simpa [bodyText] using hstatement.append hothers

theorem branchesClose (hc : c.Legible) {rest : List Char} :
    ∀ others : List (Expression × List (Statement × Bool)),
      (∀ word ∈ branchesSpelling others, word.Legible) →
      ClosesCurly rest →
      ClosesCurly ((branchesText c others).toList ++ rest)
  | [], _, hrest => by
    rw [branchesText]
    exact hrest
  | (condition, body) :: others, h, hrest => by
    rw [branchesSpelling] at h
    have hcondition := condition.nested hc fun word hword => h word (by simp [hword])
    have hbody := bodyNested hc body fun word hword => h word (by simp [hword])
    have hothers := branchesClose hc others (fun word hword => h word (by simp [hword])) hrest
    have hline :=
      (Nested.plain " else if " (by decide)).append
        (Nested.round hcondition.spreads (.plain " " (by decide)))
    simpa [branchesText] using ClosesCurly.reopen hline
      ((Nested.plain "\n" (by decide)).append hbody) hothers

theorem otherwiseCloses (hc : c.Legible) :
    ∀ otherwise : Option (List (Statement × Bool)),
      (∀ word ∈ otherwiseSpelling otherwise, word.Legible) →
      ClosesCurly ((otherwiseText c otherwise).toList ++ "\x7d\n".toList)
  | none, _ => by
    rw [otherwiseText]
    exact .last (.plain "\n" (by decide))
  | some body, h => by
    rw [otherwiseSpelling] at h
    have hbody := bodyNested hc body fun word hword => h word (by simp [hword])
    have hend : ClosesCurly "\x7d\n".toList := .last (.plain "\n" (by decide))
    simpa [otherwiseText] using
      ClosesCurly.reopen (.plain " else " (by decide))
        ((Nested.plain "\n" (by decide)).append hbody) hend

end

end Texts

end Grammar
end Oberon
