import Oberon.Proofs.Layout
import Mathlib.Data.List.TakeWhile

/-!
# The texts of tokens

The lexical grammar of a source, and what each text becomes.

    name        := letter {letter | digit}
    decimal     := digit {digit}
    hexadecimal := digit {hexadecimal digit} (H | X)
    real        := digit {digit} . {digit} [(E | e) [+ | -] digit {digit}]
    quoted      := " {character} " | ' {character} '

**Raw tokens.**  `Raw` has the tokens of the grammar; `Raw.text` is the text in the source, and
`Raw.content` the kind and the lexeme that it becomes.

**Lexemes.**  `Token.Fits` says by its kind which lexemes a token may have, and `Token.printed` goes
back from kind and lexeme to the text in the source.  Raw tokens become what fits (`Raw.fits`) and
all that fits comes from them (`exists_raw_of_fits`); printing gives their texts
(`Raw.printed_content`).
-/

namespace Oberon
namespace Lexical

/-! ### Raw tokens -/

/-- A first character of one class and behind it characters of another one. -/
structure Run (head tail : Char → Bool) where
  first : Char
  others : List Char
  head_first : head first = true
  tail_others : ∀ c ∈ others, tail c = true

def Run.text {head tail : Char → Bool} (r : Run head tail) : List Char := r.first :: r.others

abbrev Name := Run Char.isAlpha Char.isAlphanum

abbrev Digits := Run Char.isDigit Char.isDigit

/-- A run of hexadecimal digits begins with a decimal one, or it would be a name. -/
abbrev HexDigits := Run Char.isDigit Reading.isHexDigit

/-- What hexadecimal digits stand for. -/
inductive HexUse
  | integer | character
  deriving DecidableEq, Repr

def HexUse.suffix : HexUse → Char
  | integer => 'H'
  | character => 'X'

def HexUse.kind : HexUse → Token.Kind
  | integer => .number .integer
  | character => .charLiteral

/-- What a literal is quoted with. -/
inductive Quote
  | double | single
  deriving DecidableEq, Repr

def Quote.mark : Quote → Char
  | double => '"'
  | single => '\''

def Quote.kind : Quote → Token.Kind
  | double => .stringLiteral
  | single => .charLiteral

structure Exponent where
  mark : Char
  sign : List Char
  digits : Digits
  mark_eq : mark = 'E' ∨ mark = 'e'
  sign_eq : sign = [] ∨ sign = ['+'] ∨ sign = ['-']

def Exponent.text (e : Exponent) : List Char := e.mark :: e.sign ++ e.digits.text

structure RealNumeral where
  whole : Digits
  fraction : List Char
  exponent : Option Exponent
  isDigit_fraction : ∀ c ∈ fraction, c.isDigit = true

def RealNumeral.text (r : RealNumeral) : List Char :=
  r.whole.text ++ '.' :: r.fraction ++ r.exponent.elim [] Exponent.text

/-- A token of the lexical grammar. -/
inductive Raw
  | name (name : Name) (free : Keyword.ofSpelling? (String.ofList name.text) = none)
  | keyword (word : Keyword)
  | decimal (digits : Digits)
  | hexadecimal (use : HexUse) (digits : HexDigits)
  | real (numeral : RealNumeral)
  | quoted (quote : Quote) (body : List Char) (free : quote.mark ∉ body)
  | sign (sign : Sign)

namespace Raw

/-- The text in the source. -/
def text : Raw → List Char
  | .name n _ => n.text
  | keyword word => word.spelling.toList
  | decimal digits => digits.text
  | hexadecimal use digits => digits.text ++ [use.suffix]
  | real r => r.text
  | quoted quote body _ => quote.mark :: body ++ [quote.mark]
  | sign s => s.text.toList

/-- The kind and the lexeme that the text becomes. -/
def content : Raw → Token.Kind × String
  | .name n _ => (.identifier, String.ofList n.text)
  | keyword .TRUE => (.number .boolean, "true")
  | keyword .FALSE => (.number .boolean, "false")
  | keyword .NIL => (.number .nil, "NULL")
  | keyword word => (.keyword word, word.spelling)
  | decimal digits => (.number .integer, String.ofList digits.text)
  | hexadecimal use digits => (use.kind, "0x" ++ String.ofList digits.text)
  | real r => (.number .real, String.ofList r.text)
  | quoted quote body _ => (quote.kind, String.ofList (quote.mark :: body ++ [quote.mark]))
  | sign s => (.sign s, s.text)

end Raw

/-- A hexadecimal lexeme. -/
def hexLexeme (digits : HexDigits) : String := "0x" ++ String.ofList digits.text

/-- A quoted lexeme. -/
def IsQuoted (quote : Quote) (lexeme : String) : Prop :=
  ∃ body, quote.mark ∉ body ∧ lexeme = String.ofList (quote.mark :: body ++ [quote.mark])

/--
The lexeme of a number in hexadecimal digits goes back to the digits and a suffix; others stay as
they are.
-/
def respelled (use : HexUse) : List Char → List Char
  | '0' :: 'x' :: digits => digits ++ [use.suffix]
  | text => text

end Lexical

open Lexical

namespace Token

/-- The lexeme is one that tokens of the kind have; the end of the source has no text. -/
def Fits : Token.Kind → String → Prop
  | .identifier, lexeme =>
      (∃ name : Name, lexeme = String.ofList name.text) ∧ Keyword.ofSpelling? lexeme = none
  | .number .integer, lexeme =>
      (∃ digits : Digits, lexeme = String.ofList digits.text) ∨ ∃ digits, lexeme = hexLexeme digits
  | .number .real, lexeme => ∃ real : RealNumeral, lexeme = String.ofList real.text
  | .number .boolean, lexeme => lexeme = "true" ∨ lexeme = "false"
  | .number .nil, lexeme => lexeme = "NULL"
  | .charLiteral, lexeme => IsQuoted .single lexeme ∨ ∃ digits, lexeme = hexLexeme digits
  | .stringLiteral, lexeme => IsQuoted .double lexeme
  | .keyword word, lexeme => word ∉ [Keyword.TRUE, .FALSE, .NIL] ∧ lexeme = word.spelling
  | .sign sign, lexeme => lexeme = sign.text
  | .eof, _ => False

/-- The lexeme of the token fits its kind. -/
def WellFormed (t : Token) : Prop := Fits t.kind t.lexeme

/-- The text in a source of what has become some kind and lexeme. -/
def printed (content : Token.Kind × String) : List Char :=
  match wordBehind? content with
  | some word => word.spelling.toList
  | none => match content with
    | (.number .integer, lexeme) => respelled .integer lexeme.toList
    | (.charLiteral, lexeme) => respelled .character lexeme.toList
    | (_, lexeme) => lexeme.toList

/-- The token as a source writes it. -/
def print (t : Token) : String := String.ofList (printed t.content)

end Token

namespace Lexical

/-! ### Raw tokens and lexemes -/

theorem respelled_hexLexeme (use : HexUse) (digits : HexDigits) :
    respelled use (hexLexeme digits).toList = digits.text ++ [use.suffix] := by
  simp [hexLexeme, respelled]

theorem respelled_of_ne
    {use : HexUse} {text : List Char} (h : ∀ digits, text ≠ '0' :: 'x' :: digits) :
    respelled use text = text := by
  unfold respelled
  split
  · exact absurd rfl (h _)
  · rfl

theorem Run.ne_hexLexeme (digits : Digits) (others : List Char) :
    digits.text ≠ '0' :: 'x' :: others := by
  intro h
  obtain ⟨-, hothers⟩ := List.cons.inj h
  have hx := digits.tail_others 'x' (by simp [hothers])
  cases hx

/-- Raw tokens become what fits, and what fits goes back to them. -/
theorem Raw.fits (raw : Raw) : Token.Fits raw.content.1 raw.content.2 := by
  cases raw with
  | name name free => exact ⟨⟨name, rfl⟩, free⟩
  | keyword word => cases word <;> simp [Raw.content, Token.Fits]
  | decimal digits => exact Or.inl ⟨digits, rfl⟩
  | hexadecimal use digits =>
    cases use with
    | integer => exact Or.inr ⟨digits, rfl⟩
    | character => exact Or.inr ⟨digits, rfl⟩
  | real r => exact ⟨r, rfl⟩
  | quoted quote body free =>
    cases quote with
    | double => exact ⟨body, free, rfl⟩
    | single => exact Or.inl ⟨body, free, rfl⟩
  | sign s => rfl

theorem exists_raw_of_fits {kind : Token.Kind} {lexeme : String} (h : Token.Fits kind lexeme) :
    ∃ raw : Raw, raw.content = (kind, lexeme) := by
  cases kind with
  | identifier =>
    obtain ⟨⟨name, rfl⟩, hfree⟩ := h
    exact ⟨.name name hfree, rfl⟩
  | number numeral =>
    cases numeral with
    | integer =>
      obtain ⟨digits, rfl⟩ | ⟨digits, rfl⟩ := h
      · exact ⟨.decimal digits, rfl⟩
      · exact ⟨.hexadecimal .integer digits, rfl⟩
    | real =>
      obtain ⟨real, rfl⟩ := h
      exact ⟨.real real, rfl⟩
    | boolean =>
      obtain rfl | rfl := h
      · exact ⟨.keyword .TRUE, rfl⟩
      · exact ⟨.keyword .FALSE, rfl⟩
    | nil =>
      obtain rfl := h
      exact ⟨.keyword .NIL, rfl⟩
  | charLiteral =>
    obtain ⟨body, hbody, rfl⟩ | ⟨digits, rfl⟩ := h
    · exact ⟨.quoted .single body hbody, rfl⟩
    · exact ⟨.hexadecimal .character digits, rfl⟩
  | stringLiteral =>
    obtain ⟨body, hbody, rfl⟩ := h
    exact ⟨.quoted .double body hbody, rfl⟩
  | keyword word =>
    obtain ⟨hword, rfl⟩ := h
    refine ⟨.keyword word, ?_⟩
    cases word <;> simp_all [Raw.content]
  | sign s =>
    obtain rfl := h
    exact ⟨.sign s, rfl⟩
  | eof => exact h.elim

/-- The reserved word that a raw token is, if it is one. -/
@[simp]
def Raw.word? : Raw → Option Keyword
  | .keyword word => some word
  | _ => none

theorem Raw.wordBehind?_content (raw : Raw) : Token.wordBehind? raw.content = raw.word? := by
  cases raw with
  | keyword word => cases word <;> rfl
  | hexadecimal use digits => cases use <;> rfl
  | quoted quote body free => cases quote <;> rfl
  | _ => rfl

/-- Printing what a raw token has become gives its text. -/
theorem Raw.printed_content (raw : Raw) : Token.printed raw.content = raw.text := by
  unfold Token.printed
  rw [raw.wordBehind?_content]
  cases raw with
  | name name free => simp [Raw.content, Raw.text]
  | keyword word => rfl
  | decimal digits =>
    simp only [Raw.content, String.toList_ofList]
    exact respelled_of_ne digits.ne_hexLexeme
  | hexadecimal use digits =>
    cases use with
    | integer => exact respelled_hexLexeme .integer digits
    | character => exact respelled_hexLexeme .character digits
  | real r => simp [Raw.content, Raw.text]
  | quoted quote body free =>
    cases quote with
    | double => simp [Raw.content, Raw.text, Quote.kind]
    | single =>
      simp only [Raw.content, Quote.kind, String.toList_ofList]
      exact respelled_of_ne fun digits h => absurd (List.cons.inj h).1 (by decide)
  | sign s => rfl

/--
What is read for a raw token before the reserved words are told apart, and what it is afterwards.
-/
theorem Raw.content_classify (raw : Raw) {t : Token} (h : t.content = Token.unreserve raw.content) :
    (t.classify Keyword.ofSpelling?).content = raw.content := by
  have hword := raw.wordBehind?_content
  unfold Token.unreserve at h
  rw [hword] at h
  have hkept : t.content = raw.content →
        (raw.content.1 = .identifier → Keyword.ofSpelling? raw.content.2 = none) →
      (t.classify Keyword.ofSpelling?).content = raw.content := by
    intro hcontent hfree
    have hkind : t.kind = raw.content.1 := congrArg Prod.fst hcontent
    have hlexeme : t.lexeme = raw.content.2 := congrArg Prod.snd hcontent
    unfold Token.classify
    split
    · rename_i hname
      rw [hlexeme, hfree (hkind ▸ hname)]
      exact hcontent
    · exact hcontent
  cases raw with
  | name name free => exact hkept h fun _ => free
  | keyword word =>
    have hkind : t.kind = .identifier := congrArg Prod.fst h
    have hlexeme : t.lexeme = word.spelling := congrArg Prod.snd h
    unfold Token.classify
    rw [if_pos hkind, hlexeme, Keyword.ofSpelling?_spelling]
    cases word <;> simp [Token.reserve, Token.content, Raw.content, hlexeme, Keyword.spelling]
  | decimal digits => exact hkept h fun hname => by cases hname
  | hexadecimal use digits =>
    refine hkept h fun hname => ?_
    cases use <;> cases hname
  | real r => exact hkept h fun hname => by cases hname
  | quoted quote body free =>
    refine hkept h fun hname => ?_
    cases quote <;> cases hname
  | sign s => exact hkept h fun hname => by cases hname

end Lexical
end Oberon
