import Oberon.Proofs.Grammar.Expression

/-!
# The lexemes of C expressions

How a C text falls into lexemes.  The longest possible lexeme is taken: `&&` is one operator and
`1.5E+3` one number, and two signs that C reads as one of its other operators, or as the start of a
comment, are no operators of an expression.

**Literals.**  A literal runs from its quote to the next quote of the same kind.  The escapes of C
are left out: a backslash is a character like any other, so that a literal that ends in a backslash
ends here with its quote, where C reads the quote as a character of the literal and reads on.

**Words.**  `lex_word`, `lex_quoted` and `lex_operator` say which lexeme a piece of text is,
whatever follows it; a word must be followed by something that `Breaks` it.
-/

namespace Oberon
namespace Target

/-- The operators between two operands. -/
inductive Binary
  | times | quotient | modulo
  | plus | minus
  | less | lessEqual | greater | greaterEqual
  | equal | notEqual
  | bitAnd
  | and
  | or
  deriving DecidableEq, Repr

inductive Bracket
  | round | square
  deriving DecidableEq, Repr

inductive Lexeme
  /-- A name or a number. -/
  | word (text : String)
  /-- A literal with its quotes. -/
  | quoted (text : String)
  | opening (bracket : Bracket)
  | closing (bracket : Bracket)
  | comma
  | bang
  | binary (op : Binary)
  /-- Anything that does not belong into an expression. -/
  | other (text : String)
  deriving DecidableEq, Repr

namespace Lexeme

/-- A lexeme of which more characters may follow. -/
inductive Pending
  | nothing
  | word (text : List Char)
  | quote (mark : Char) (text : List Char)
  | sign (c : Char)
  deriving DecidableEq, Repr

/-- The characters of names. -/
def isNameChar (c : Char) : Bool := c.isAlphanum || c == '_'

/--
Whether a character continues a word: only numbers go on with a point, or with a sign behind an
exponent mark.
-/
def continues (text : List Char) (c : Char) : Bool :=
  isNameChar c ||
    (text.head?.any Char.isDigit &&
      (c == '.' ||
        ((c == '+' || c == '-') && text.getLast?.any fun last => last == 'e' || last == 'E')))

/-- The lexeme of a sign that is not part of a longer one. -/
def ofSign : Char → Lexeme
  | '*' => binary .times
  | '/' => binary .quotient
  | '%' => binary .modulo
  | '+' => binary .plus
  | '-' => binary .minus
  | '<' => binary .less
  | '>' => binary .greater
  | '&' => binary .bitAnd
  | '!' => bang
  | c => other (String.singleton c)

/-- The lexeme of two signs that belong together. -/
def ofSigns? (first second : Char) : Option Lexeme :=
  match first, second with
  | '&', '&' => some (binary .and)
  | '|', '|' => some (binary .or)
  | '=', '=' => some (binary .equal)
  | '!', '=' => some (binary .notEqual)
  | '<', '=' => some (binary .lessEqual)
  | '>', '=' => some (binary .greaterEqual)
  | _, _ =>
      if [('+', '+'), ('-', '-'), ('-', '>'), ('<', '<'), ('>', '>'), ('+', '='), ('-', '='),
          ('*', '='), ('/', '='), ('%', '='), ('&', '='), ('|', '='), ('^', '='), ('/', '/'),
          ('/', '*')].contains (first, second) then
        some (other (String.ofList [first, second]))
      else
        none

/-- The lexeme of a character that is a lexeme by itself. -/
def single? : Char → Option Lexeme
  | '(' => some (opening .round)
  | ')' => some (closing .round)
  | '[' => some (opening .square)
  | ']' => some (closing .square)
  | ',' => some comma
  | _ => none

/-- The first character of a lexeme. -/
def begin (c : Char) : List Lexeme × Pending :=
  if c = ' ' ∨ c = '\n' ∨ c = '\t' then ([], .nothing)
  else if isNameChar c then ([], .word [c])
  else if c = '"' ∨ c = '\'' then ([], .quote c [c])
  else match single? c with
    | some lexeme => ([lexeme], .nothing)
    | none => ([], .sign c)

/-- Puts a finished lexeme in front. -/
def after (lexeme : Lexeme) (found : List Lexeme × Pending) : List Lexeme × Pending :=
  (lexeme :: found.1, found.2)

/-- The lexemes that a character finishes, and what is pending behind it. -/
def step : Pending → Char → List Lexeme × Pending
  | .nothing, c => begin c
  | .word text, c =>
      if continues text c then ([], .word (text ++ [c]))
        else after (word (String.ofList text)) (begin c)
  | .quote mark text, c =>
      if c = mark then ([quoted (String.ofList (text ++ [c]))], .nothing)
        else ([], .quote mark (text ++ [c]))
  | .sign first, c =>
      match ofSigns? first c with
      | some lexeme => ([lexeme], .nothing)
      | none => after (ofSign first) (begin c)

/-- The lexemes at the end of a text. -/
def finish : Pending → List Lexeme
  | .nothing => []
  | .word text => [word (String.ofList text)]
  | .quote _ text => [other (String.ofList text)]
  | .sign c => [ofSign c]

/-- The lexemes of a text behind a pending one. -/
def lexFrom : Pending → List Char → List Lexeme
  | pending, [] => finish pending
  | pending, c :: rest => (step pending c).1 ++ lexFrom (step pending c).2 rest

/-- The lexemes of a text. -/
def lex (text : List Char) : List Lexeme := lexFrom .nothing text

example : lex "(a_b && 1.5E+3)".toList =
    [opening .round, word "a_b", binary .and, word "1.5E+3", closing .round] := by decide

/-! ### What a piece of text is -/

/-- Blanks, brackets, commas and semicolons. -/
def breaking : List Char := [' ', '\t', '\n', '(', ')', '[', ']', ',', ';']

/-- A character that ends a word follows, or nothing at all. -/
def Breaks (rest : List Char) : Prop := ∀ c ∈ rest.head?, c ∈ breaking

theorem breaks_cons {c : Char} (rest : List Char) (h : c ∈ breaking) : Breaks (c :: rest) := by
  intro d hd
  obtain rfl : c = d := by simpa using hd
  exact h

theorem breaks_append
    {text : String}
    (rest : List Char)
    (h : text.toList.head?.any breaking.contains = true) :
    Breaks (text.toList ++ rest) := by
  cases htext : text.toList with
  | nil =>
    rw [htext] at h
    cases h
  | cons c more =>
    rw [htext] at h
    exact breaks_cons _ (by simpa using h)

theorem continues_of_mem_breaking
    {c : Char} (text : List Char) (h : c ∈ breaking) :
    continues text c = false := by
  have hc : ∀ c ∈ breaking, isNameChar c = false ∧ c ≠ '.' ∧ c ≠ '+' ∧ c ≠ '-' := by
    simp [breaking, isNameChar]
  obtain ⟨hname, hpoint, hplus, hminus⟩ := hc c h
  simp [continues, hname, hpoint, hplus, hminus]

/-- All characters continue the word that they stand behind. -/
def runsOn : List Char → List Char → Bool
  | _, [] => true
  | text, c :: rest => continues text c && runsOn (text ++ [c]) rest

/-- The text is one word. -/
def IsWord (text : List Char) : Prop :=
  ∃ c rest, text = c :: rest ∧ isNameChar c = true ∧ runsOn [c] rest = true

instance : (text : List Char) → Decidable (IsWord text)
  | [] => isFalse (by rintro ⟨c, rest, h, -⟩; cases h)
  | c :: rest =>
      decidable_of_iff (isNameChar c = true ∧ runsOn [c] rest = true)
        ⟨fun h => ⟨c, rest, rfl, h⟩, by rintro ⟨_, _, ⟨⟩, h⟩; exact h⟩

theorem runsOn_append (text first second : List Char) :
    runsOn text (first ++ second) = (runsOn text first && runsOn (text ++ first) second) := by
  induction first generalizing text with
  | nil => simp [runsOn]
  | cons c first ih => simp [runsOn, ih, Bool.and_assoc]

theorem runsOn_of_forall_isNameChar
    {text rest : List Char} (h : ∀ c ∈ rest, isNameChar c = true) : runsOn text rest = true := by
  induction rest generalizing text with
  | nil => rfl
  | cons c rest ih =>
    have hc : isNameChar c = true := h c (by simp)
    rw [runsOn, ih fun d hd => h d (by simp [hd])]
    simp [continues, hc]

theorem isWord_of_forall_isNameChar
    {text : List Char} (hne : text ≠ []) (h : ∀ c ∈ text, isNameChar c = true) :
    IsWord text := by
  obtain ⟨c, rest, rfl⟩ := List.exists_cons_of_ne_nil hne
  exact ⟨c, rest, rfl, h c (by simp), runsOn_of_forall_isNameChar fun d hd => h d (by simp [hd])⟩

theorem lexFrom_word_append
    {text more : List Char} (rest : List Char) (h : runsOn text more = true) :
    lexFrom (.word text) (more ++ rest) = lexFrom (.word (text ++ more)) rest := by
  induction more generalizing text with
  | nil => simp
  | cons c more ih =>
    rw [runsOn, Bool.and_eq_true] at h
    rw [List.cons_append, lexFrom]
    simp only [step, h.1, if_true, List.nil_append]
    rw [ih h.2, List.append_assoc, List.singleton_append]

theorem lexFrom_word_of_breaks (text rest : List Char) (h : Breaks rest) :
    lexFrom (.word text) rest = word (String.ofList text) :: lex rest := by
  cases rest with
  | nil => rfl
  | cons c rest =>
    have hstop : continues text c = false := continues_of_mem_breaking text (h c (by simp))
    rw [lexFrom, lex, lexFrom]
    simp [step, hstop, after]

theorem lex_word {text : List Char} (rest : List Char) (hword : IsWord text) (hrest : Breaks rest) :
    lex (text ++ rest) = word (String.ofList text) :: lex rest := by
  obtain ⟨c, more, rfl, hc, hmore⟩ := hword
  have hblank : ¬ (c = ' ' ∨ c = '\n' ∨ c = '\t') := by
    rintro (rfl | rfl | rfl)
    all_goals cases hc
  rw [List.cons_append, lex, lexFrom]
  simp only [step, begin, if_neg hblank, if_pos hc, List.nil_append]
  rw [lexFrom_word_append rest hmore, List.singleton_append, lexFrom_word_of_breaks _ _ hrest]

theorem lexFrom_quote_append
    {mark : Char} {more : List Char} (text rest : List Char) (h : ∀ c ∈ more, c ≠ mark) :
    lexFrom (.quote mark text) (more ++ mark :: rest) =
      quoted (String.ofList (text ++ more ++ [mark])) :: lex rest := by
  induction more generalizing text with
  | nil =>
    rw [List.nil_append, lexFrom]
    simp [step, lex]
  | cons c more ih =>
    have hc : c ≠ mark := h c (by simp)
    rw [List.cons_append, lexFrom]
    simp only [step, if_neg hc, List.nil_append]
    rw [ih _ fun d hd => h d (by simp [hd])]
    simp

theorem lex_quoted
    {mark : Char}
    {more : List Char}
    (rest : List Char)
    (hmark : mark = '"' ∨ mark = '\'')
    (h : ∀ c ∈ more, c ≠ mark) :
    lex (mark :: more ++ [mark] ++ rest) =
      quoted (String.ofList (mark :: more ++ [mark])) :: lex rest := by
  have hbegin : begin mark = ([], .quote mark [mark]) := by
    obtain rfl | rfl := hmark
    all_goals rfl
  rw [List.append_assoc, List.cons_append, lex, lexFrom]
  simp only [step, hbegin, List.nil_append]
  have hquote := lexFrom_quote_append [mark] rest h
  simpa using hquote

/-- The operator of C that an operator is written as. -/
def ofOperator : Operator → Binary
  | .equal => .equal
  | .notEqual => .notEqual
  | .less => .less
  | .lessEqual => .lessEqual
  | .greater => .greater
  | .greaterEqual => .greaterEqual
  | .plus => .plus
  | .minus => .minus
  | .or => .or
  | .times => .times
  | .quotient => .quotient
  | .div => .quotient
  | .mod => .modulo
  | .and => .and

theorem lex_operator (op : Operator) (rest : List Char) :
    lex (op.text.toList ++ rest) = binary (ofOperator op) :: lex rest := by
  cases op <;> rfl

/-- A sign in front of anything that makes no other sign of it. -/
theorem lex_sign
    {c : Char}
    {rest : List Char}
    (hbegin : begin c = ([], .sign c))
    (hrest : ∀ d ∈ rest.head?, ofSigns? c d = none) :
    lex (c :: rest) = ofSign c :: lex rest := by
  rw [lex, lexFrom]
  simp only [step, hbegin, List.nil_append]
  cases rest with
  | nil => rfl
  | cons d rest =>
    rw [lexFrom, lex, lexFrom]
    simp [step, hrest d (by simp), after]

end Lexeme
end Target
end Oberon
