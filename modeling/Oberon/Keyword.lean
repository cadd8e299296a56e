/-!
# Reserved words

The words that no declaration may use, in the order in which a symbol table is seeded with them.
-/

namespace Oberon

/-- A reserved word, written as the language spells it. -/
inductive Keyword
  | MODULE | BEGIN | END | IMPORT | CONST | VAR | PROCEDURE
  | IF | THEN | ELSIF | ELSE | WHILE | DO | REPEAT | UNTIL | RETURN
  | ARRAY | OF | POINTER | TO
  | INC | DEC | BREAK | CONTINUE
  | OR | DIV | MOD
  | TRUE | FALSE | NIL
  | ABS | ODD | ASH | ASSERT | ORD | CHR | FLOOR
  | INTEGER | LONGINT | REAL | LONGREAL | BOOLEAN | CHAR
  deriving DecidableEq, Repr

namespace Keyword

/-- Every reserved word once, in seeding order. -/
def all : List Keyword :=
  [.MODULE, .BEGIN, .END, .IMPORT, .CONST, .VAR, .PROCEDURE,
    .IF, .THEN, .ELSIF, .ELSE, .WHILE, .DO, .REPEAT, .UNTIL, .RETURN,
    .ARRAY, .OF, .POINTER, .TO,
    .INC, .DEC, .BREAK, .CONTINUE,
    .OR, .DIV, .MOD,
    .TRUE, .FALSE, .NIL,
    .ABS, .ODD, .ASH, .ASSERT, .ORD, .CHR, .FLOOR,
    .INTEGER, .LONGINT, .REAL, .LONGREAL, .BOOLEAN, .CHAR]

/-- The text of a reserved word in a source. -/
def spelling : Keyword → String
  | MODULE => "MODULE"
  | BEGIN => "BEGIN"
  | END => "END"
  | IMPORT => "IMPORT"
  | CONST => "CONST"
  | VAR => "VAR"
  | PROCEDURE => "PROCEDURE"
  | IF => "IF"
  | THEN => "THEN"
  | ELSIF => "ELSIF"
  | ELSE => "ELSE"
  | WHILE => "WHILE"
  | DO => "DO"
  | REPEAT => "REPEAT"
  | UNTIL => "UNTIL"
  | RETURN => "RETURN"
  | ARRAY => "ARRAY"
  | OF => "OF"
  | POINTER => "POINTER"
  | TO => "TO"
  | INC => "INC"
  | DEC => "DEC"
  | BREAK => "BREAK"
  | CONTINUE => "CONTINUE"
  | OR => "OR"
  | DIV => "DIV"
  | MOD => "MOD"
  | TRUE => "TRUE"
  | FALSE => "FALSE"
  | NIL => "NIL"
  | ABS => "ABS"
  | ODD => "ODD"
  | ASH => "ASH"
  | ASSERT => "ASSERT"
  | ORD => "ORD"
  | CHR => "CHR"
  | FLOOR => "FLOOR"
  | INTEGER => "INTEGER"
  | LONGINT => "LONGINT"
  | REAL => "REAL"
  | LONGREAL => "LONGREAL"
  | BOOLEAN => "BOOLEAN"
  | CHAR => "CHAR"

/-- The name under which a token listing shows a reserved word. -/
def label : Keyword → String
  | MODULE => "Module"
  | BEGIN => "Begin"
  | END => "End"
  | IMPORT => "Import"
  | CONST => "Const"
  | VAR => "Var"
  | PROCEDURE => "Procedure"
  | IF => "If"
  | THEN => "Then"
  | ELSIF => "Elsif"
  | ELSE => "Else"
  | WHILE => "While"
  | DO => "Do"
  | REPEAT => "Repeat"
  | UNTIL => "Until"
  | RETURN => "Return"
  | ARRAY => "Array"
  | OF => "Of"
  | POINTER => "Pointer"
  | TO => "To"
  | INC => "Inc"
  | DEC => "Dec"
  | BREAK => "Break"
  | CONTINUE => "Continue"
  | OR => "Or"
  | DIV => "Div"
  | MOD => "Mod"
  | TRUE => "True"
  | FALSE => "False"
  | NIL => "Nil"
  | ABS => "Abs"
  | ODD => "Odd"
  | ASH => "Ash"
  | ASSERT => "Assert"
  | ORD => "Ord"
  | CHR => "Chr"
  | FLOOR => "Floor"
  | INTEGER => "Integer"
  | LONGINT => "LongInt"
  | REAL => "Real"
  | LONGREAL => "LongReal"
  | BOOLEAN => "Boolean"
  | CHAR => "Char"

/-- The reserved word with a given spelling. -/
def ofSpelling? (word : String) : Option Keyword :=
  all.find? fun keyword => keyword.spelling == word

theorem mem_all (keyword : Keyword) : keyword ∈ all := by
  cases keyword <;> decide

end Keyword
end Oberon
