import Oberon.Text.Blank

/-!
# White space and comments

Between two tokens stand white space and comments.  A comment runs from `(*` to its matching `*)`;
delimiters are taken from left to right without overlap and nest to any depth, and a comment that is
never closed takes the rest of the text.
-/

namespace Oberon
namespace Trivia

/--
Splits a text into the white space and comments at its front and what follows them, where `depth`
comments are open at the start.
-/
def split : Nat → List Char → List Char × List Char
  | _, [] => ([], [])
  | 0, '(' :: '*' :: rest =>
      ('(' :: '*' :: (split 1 rest).1, (split 1 rest).2)
  | 0, c :: rest =>
      if Text.isBlank c then (c :: (split 0 rest).1, (split 0 rest).2) else ([], c :: rest)
  | depth + 1, '(' :: '*' :: rest =>
      ('(' :: '*' :: (split (depth + 2) rest).1, (split (depth + 2) rest).2)
  | depth + 1, '*' :: ')' :: rest =>
      ('*' :: ')' :: (split depth rest).1, (split depth rest).2)
  | depth + 1, c :: rest =>
      (c :: (split (depth + 1) rest).1, (split (depth + 1) rest).2)

theorem split_append (depth : Nat) (text : List Char) :
    (split depth text).1 ++ (split depth text).2 = text := by
  fun_induction split depth text <;> simp_all

end Trivia
end Oberon
