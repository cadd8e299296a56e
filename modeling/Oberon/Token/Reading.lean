import Oberon.Token.Basic

/-!
# Reading one token

`Reading.of` reads the token at the front of a text that starts with no white space and no comment.
A reading keeps the raw text it took and what follows it, also when the token is malformed.

**Main statements.**
* `of_append`: raw text and rest make up the input.
* `of_text_ne_nil`: something is taken from every text that is not empty.

Words are read as identifiers; which of them are reserved is decided elsewhere.
-/

namespace Oberon

/-- Why no token could be read. -/
inductive ScanError
  | unknownCharacter (c : Char)
  | exponentWithoutDigits
  | malformedNumber (digits : String)
  deriving DecidableEq, Repr

/-- The wording of a scan error. -/
def ScanError.message : ScanError → String
  | unknownCharacter c => "Unknown character '" ++ c.toString ++ "'"
  | exponentWithoutDigits => "Digit expected after exponent"
  | malformedNumber digits => "Invalid number format '" ++ digits ++ "'"

/-- One raw token: what it is, the text it takes and the text behind it. -/
structure Reading where
  outcome : Except ScanError (Token.Kind × String)
  text : List Char
  rest : List Char

namespace Reading

/-- Hexadecimal digits in either case. -/
def isHexDigit (c : Char) : Bool :=
  c.isDigit || (decide ('A' ≤ c) && decide (c ≤ 'F')) || (decide ('a' ≤ c) && decide (c ≤ 'f'))

/-- The longest run of letters and digits. -/
def word (input : List Char) : Reading :=
  let text := input.takeWhile Char.isAlphanum
  ⟨.ok (.identifier, String.ofList text), text, input.dropWhile Char.isAlphanum⟩

/-- An optional sign in front of an exponent. -/
def exponentSign : List Char → List Char
  | '+' :: _ => ['+']
  | '-' :: _ => ['-']
  | _ => []

/-- The exponent of a real number whose text so far is `taken`; `input` stands behind the marker. -/
def exponent (taken input : List Char) : Reading :=
  let sign := exponentSign input
  let digits := (input.drop sign.length).takeWhile Char.isDigit
  let rest := (input.drop sign.length).dropWhile Char.isDigit
  let text := taken ++ sign ++ digits
  ⟨if digits.isEmpty then .error .exponentWithoutDigits
    else .ok (.number .real, String.ofList text), text, rest⟩

/--
Fraction and exponent of a real number whose text so far is `taken`; `input` stands behind the
point.
-/
def fraction (taken input : List Char) : Reading :=
  let text := taken ++ input.takeWhile Char.isDigit
  match input.dropWhile Char.isDigit with
  | 'E' :: rest => exponent (text ++ ['E']) rest
  | 'e' :: rest => exponent (text ++ ['e']) rest
  | rest => ⟨.ok (.number .real, String.ofList text), text, rest⟩

/--
A run of digits behind which neither `H` nor `X` stands: it must be decimal, and a point makes it
real.
-/
def decimal (digits rest : List Char) : Reading :=
  if digits.all Char.isDigit then
    match rest with
    | '.' :: behind => fraction (digits ++ ['.']) behind
    | _ => ⟨.ok (.number .integer, String.ofList digits), digits, rest⟩
  else ⟨.error (.malformedNumber (String.ofList digits)), digits, rest⟩

/--
A number: a run of hexadecimal digits is an integer before `H`, a character before `X`, else
decimal.
-/
def number (input : List Char) : Reading :=
  let digits := input.takeWhile isHexDigit
  match input.dropWhile isHexDigit with
  | 'H' :: rest => ⟨.ok (.number .integer, "0x" ++ String.ofList digits), digits ++ ['H'], rest⟩
  | 'X' :: rest => ⟨.ok (.charLiteral, "0x" ++ String.ofList digits), digits ++ ['X'], rest⟩
  | rest => decimal digits rest

/--
A literal opened by `quote`, with `input` behind the opening quote.  It runs to the same quote or,
without one, to the end of the text; the lexeme is closed either way.
-/
def quoted (kind : Token.Kind) (quote : Char) (input : List Char) : Reading :=
  let body := input.takeWhile (· != quote)
  let lexeme := String.ofList (quote :: body ++ [quote])
  match input.dropWhile (· != quote) with
  | [] => ⟨.ok (kind, lexeme), quote :: body, []⟩
  | _ :: rest => ⟨.ok (kind, lexeme), quote :: body ++ [quote], rest⟩

/-- A sign of one character. -/
def short (sign : Sign) (c : Char) (rest : List Char) : Reading :=
  ⟨.ok (.sign sign, sign.text), [c], rest⟩

/-- A sign that an equals sign behind its first character turns into another one. -/
def long (sign withEqual : Sign) (c : Char) : List Char → Reading
  | '=' :: rest => ⟨.ok (.sign withEqual, withEqual.text), [c, '='], rest⟩
  | rest => short sign c rest

/-- The sign that stands for itself as one character. -/
def sign? : Char → Option Sign
  | '(' => some .openParen
  | ')' => some .closeParen
  | '[' => some .openBracket
  | ']' => some .closeBracket
  | ';' => some .semicolon
  | ',' => some .comma
  | '.' => some .dot
  | '=' => some .equal
  | '#' => some .notEqual
  | '+' => some .plus
  | '-' => some .minus
  | '*' => some .asterisk
  | '/' => some .slash
  | '&' => some .ampersand
  | '~' => some .tilde
  | _ => none

/-- Reads a sign, or rejects one character that the language does not use. -/
def punctuation (c : Char) (rest : List Char) : Reading :=
  if c = ':' then long .colon .assign c rest
  else if c = '<' then long .less .lessEqual c rest
  else if c = '>' then long .greater .greaterEqual c rest
  else match sign? c with
    | some sign => short sign c rest
    | none => ⟨.error (.unknownCharacter c), [c], rest⟩

/-- Reads the token at the front of a text. -/
def of : List Char → Reading
  | [] => ⟨.ok (.eof, ""), [], []⟩
  | c :: rest =>
    if c.isAlpha then word (c :: rest)
    else if c.isDigit then number (c :: rest)
    else if c = '"' then quoted .stringLiteral c rest
    else if c = '\'' then quoted .charLiteral c rest
    else punctuation c rest

theorem exponent_append (taken input : List Char) :
    (exponent taken input).text ++ (exponent taken input).rest = taken ++ input := by
  have hsign : exponentSign input ++ input.drop (exponentSign input).length = input := by
    unfold exponentSign
    split <;> simp
  simp only [exponent, List.append_assoc, List.takeWhile_append_dropWhile]
  rw [hsign]

theorem fraction_append (taken input : List Char) :
    (fraction taken input).text ++ (fraction taken input).rest = taken ++ input := by
  have hsplit := List.takeWhile_append_dropWhile (p := Char.isDigit) (l := input)
  unfold fraction
  split <;> rename_i hrest
  · rw [exponent_append, List.append_assoc, List.append_assoc, List.singleton_append, ← hrest,
      hsplit]
  · rw [exponent_append, List.append_assoc, List.append_assoc, List.singleton_append, ← hrest,
      hsplit]
  · simp [List.append_assoc, hsplit]

theorem decimal_append (digits rest : List Char) :
    (decimal digits rest).text ++ (decimal digits rest).rest = digits ++ rest := by
  unfold decimal
  split
  · split
    · rw [fraction_append, List.append_assoc, List.singleton_append]
    · rfl
  · rfl

theorem number_append (input : List Char) :
    (number input).text ++ (number input).rest = input := by
  have hsplit := List.takeWhile_append_dropWhile (p := isHexDigit) (l := input)
  unfold number
  split <;> rename_i hrest
  · simp [List.append_assoc, ← hrest, hsplit]
  · simp [List.append_assoc, ← hrest, hsplit]
  · rw [decimal_append, hsplit]

theorem quoted_append (kind : Token.Kind) (quote : Char) (input : List Char) :
    (quoted kind quote input).text ++ (quoted kind quote input).rest = quote :: input := by
  have hsplit := List.takeWhile_append_dropWhile (p := (· != quote)) (l := input)
  unfold quoted
  split <;> rename_i hrest
  · simpa [hrest] using hsplit
  · rename_i c rest
    have hc : c = quote := by
      have := List.head?_dropWhile_not (· != quote) input
      rw [hrest] at this
      simpa using this
    subst hc
    simpa [hrest] using hsplit

theorem punctuation_append (c : Char) (rest : List Char) :
    (punctuation c rest).text ++ (punctuation c rest).rest = c :: rest := by
  unfold punctuation long short
  repeat' split
  all_goals simp_all

theorem of_append (input : List Char) : (of input).text ++ (of input).rest = input := by
  cases input with
  | nil => rfl
  | cons c rest =>
    simp only [of]
    split
    · simp [word, List.takeWhile_append_dropWhile]
    · split
      · exact number_append _
      · split
        · exact quoted_append ..
        · split
          · exact quoted_append ..
          · exact punctuation_append ..

theorem exponent_text (taken input : List Char) : taken <+: (exponent taken input).text :=
  ⟨exponentSign input ++ (input.drop (exponentSign input).length).takeWhile Char.isDigit,
    by simp [exponent]⟩

theorem fraction_text (taken input : List Char) : taken <+: (fraction taken input).text := by
  unfold fraction
  split
  · exact (by simp : taken <+: _).trans (exponent_text _ _)
  · exact (by simp : taken <+: _).trans (exponent_text _ _)
  · simp

theorem decimal_text (digits rest : List Char) : digits <+: (decimal digits rest).text := by
  unfold decimal
  split
  · split
    · exact (by simp : digits <+: _).trans (fraction_text _ _)
    · exact List.prefix_refl _
  · exact List.prefix_refl _

theorem number_text_ne_nil {c : Char} (h : c.isDigit = true) (rest : List Char) :
    (number (c :: rest)).text ≠ [] := by
  have hdigits : (c :: rest).takeWhile isHexDigit ≠ [] := by simp [isHexDigit, h]
  unfold number
  split
  · simp
  · simp
  · intro hnil
    exact hdigits (List.prefix_nil.1 (hnil ▸ decimal_text _ _))

theorem of_text_ne_nil (c : Char) (rest : List Char) : (of (c :: rest)).text ≠ [] := by
  simp only [of]
  split
  · rename_i h
    simp [word, Char.isAlphanum, h]
  · split
    · rename_i h
      exact number_text_ne_nil h rest
    · split
      · unfold quoted; split <;> simp
      · split
        · unfold quoted; split <;> simp
        · unfold punctuation long short
          repeat' split
          all_goals simp

/-- Every token but the end of the text takes at least one character. -/
theorem length_of_rest_lt (c : Char) (rest : List Char) :
    (of (c :: rest)).rest.length < (c :: rest).length := by
  have happend := congrArg List.length (of_append (c :: rest))
  have htext := List.length_pos_iff.2 (of_text_ne_nil c rest)
  rw [List.length_append] at happend
  omega

end Reading
end Oberon
