/-!
# Integer lexemes as numbers

An integer lexeme is a run of decimal digits, or `0x` and a run of hexadecimal digits.
-/

namespace Oberon
namespace Magnitude

/-- The value of a digit in either case; letters count from ten. -/
def digit (c : Char) : Nat :=
  if c.isDigit then c.toNat - '0'.toNat
  else if c.isUpper then c.toNat - 'A'.toNat + 10
  else c.toNat - 'a'.toNat + 10

/-- The value of a run of digits. -/
def ofDigits (base : Nat) (digits : List Char) : Nat :=
  digits.foldl (fun value c => value * base + digit c) 0

/-- The value of an integer lexeme. -/
def ofLexeme (lexeme : String) : Nat :=
  match lexeme.toList with
  | '0' :: 'x' :: digits => ofDigits 16 digits
  | digits => ofDigits 10 digits

/-- The first number that does not fit 64 bits. -/
def wordLimit : Nat := 18446744073709551616

/--
The length of an array with a literal size; a size that does not fit 64 bits counts as unknown.
-/
def arrayLength (lexeme : String) : Nat :=
  if ofLexeme lexeme < wordLimit then ofLexeme lexeme else 0

end Magnitude
end Oberon
