import Oberon.Keyword

/-!
# Tokens

A token is a kind, the position of its first character and a lexeme.  The lexeme is the text that
the compiled units use: hexadecimal numbers, `TRUE`, `FALSE` and `NIL` are already respelled in it.
-/

namespace Oberon

/-- A place in a source text; lines and columns count from 1. -/
structure Position where
  line : Nat
  column : Nat
  deriving DecidableEq, Repr

namespace Position

/-- The first character of a text. -/
def first : Position := ⟨1, 1⟩

/-- The place behind one character: only a line feed starts a line. -/
def step (p : Position) (c : Char) : Position :=
  if c = '\n' then ⟨p.line + 1, 1⟩ else ⟨p.line, p.column + 1⟩

/-- The place behind a run of characters. -/
def after (p : Position) (text : List Char) : Position :=
  text.foldl step p

/-- Line and column, divided by a colon. -/
def shown (p : Position) : String :=
  toString p.line ++ ":" ++ toString p.column

end Position

/-- What a number token denotes; `TRUE`, `FALSE` and `NIL` count as numbers. -/
inductive Numeral
  | integer | real | boolean | nil
  deriving DecidableEq, Repr

/-- The name under which a token listing shows a class of numbers. -/
def Numeral.label : Numeral → String
  | integer => "Integer"
  | real => "Real"
  | boolean => "Boolean"
  | nil => "Nil"

/-- Punctuation and operator signs. -/
inductive Sign
  | openParen | closeParen | openBracket | closeBracket | comma | colon | semicolon | dot
  | assign | equal | notEqual | less | lessEqual | greater | greaterEqual
  | plus | minus | asterisk | slash | ampersand | tilde
  deriving DecidableEq, Repr

namespace Sign

/-- The sign as a source writes it. -/
def text : Sign → String
  | openParen => "("
  | closeParen => ")"
  | openBracket => "["
  | closeBracket => "]"
  | comma => ","
  | colon => ":"
  | semicolon => ";"
  | dot => "."
  | assign => ":="
  | equal => "="
  | notEqual => "#"
  | less => "<"
  | lessEqual => "<="
  | greater => ">"
  | greaterEqual => ">="
  | plus => "+"
  | minus => "-"
  | asterisk => "*"
  | slash => "/"
  | ampersand => "&"
  | tilde => "~"

/-- The name under which a token listing shows the sign. -/
def label : Sign → String
  | openParen => "OpenParen"
  | closeParen => "CloseParen"
  | openBracket => "OpenBracket"
  | closeBracket => "CloseBracket"
  | comma => "Comma"
  | colon => "Colon"
  | semicolon => "Semicolon"
  | dot => "Dot"
  | assign => "Assign"
  | equal => "Equal"
  | notEqual => "NotEqual"
  | less => "Less"
  | lessEqual => "LessEqual"
  | greater => "Greater"
  | greaterEqual => "GreaterEqual"
  | plus => "Plus"
  | minus => "Minus"
  | asterisk => "Asterisk"
  | slash => "Slash"
  | ampersand => "Ampersand"
  | tilde => "Tilde"

end Sign

/-- The kind of a token. -/
inductive Token.Kind
  | identifier
  | number (numeral : Numeral)
  | charLiteral
  | stringLiteral
  | keyword (word : Keyword)
  | sign (sign : Sign)
  | eof
  deriving DecidableEq, Repr

namespace Token.Kind

/-- How a diagnostic names the kind. -/
def shown : Kind → String
  | identifier => "identifier"
  | number _ => "number"
  | charLiteral => "character literal"
  | stringLiteral => "string literal"
  | keyword word => word.spelling
  | sign s => s.text
  | eof => "EOF"

/-- How a token listing names the kind. -/
def label : Kind → String
  | identifier => "Identifier"
  | number numeral => "Number(" ++ numeral.label ++ ")"
  | charLiteral => "CharLiteral"
  | stringLiteral => "StringLiteral"
  | keyword word => "Keyword(" ++ word.label ++ ")"
  | sign s => s.label
  | eof => "Eof"

/-- How a diagnostic shows a token of the kind; the end of the source has no lexeme to show. -/
def found (kind : Kind) (lexeme : String) : String :=
  if kind = .eof then "EOF" else lexeme

end Token.Kind

/-- A token of a source text. -/
structure Token where
  kind : Token.Kind
  position : Position
  lexeme : String
  deriving DecidableEq, Repr

namespace Token

/-- A word that is read as an identifier becomes what a reserved word with its name stands for. -/
def reserve (t : Token) : Option Keyword → Token
  | none => t
  | some .TRUE => { t with kind := .number .boolean, lexeme := "true" }
  | some .FALSE => { t with kind := .number .boolean, lexeme := "false" }
  | some .NIL => { t with kind := .number .nil, lexeme := "NULL" }
  | some word => { t with kind := .keyword word }

/-- Tells the reserved words among the words apart. -/
def classify (reserved : String → Option Keyword) (t : Token) : Token :=
  if t.kind = .identifier then t.reserve (reserved t.lexeme) else t

end Token
end Oberon
