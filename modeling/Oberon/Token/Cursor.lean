import Oberon.Token.Trivia
import Oberon.Token.Reading

/-!
# Cursors

A cursor is what is left of a source text and the position it has reached.  `Cursor.read` skips
white space and comments and reads one token; `tokensOf` lists the tokens of a whole text with every
reserved word classified.

**Main statements.**
* `read_of_body_nil`: where only white space and comments are left, the end of the source is read.
* `length_read_lt`: any other reading, a failed one included, takes at least one character.
-/

namespace Oberon

/-- A place in a source text together with the text that follows it. -/
structure Cursor where
  rest : List Char
  position : Position
  deriving DecidableEq, Repr

namespace Cursor

/-- The start of a source text. -/
def ofText (source : String) : Cursor := ⟨source.toList, .first⟩

/-- What is left behind the white space and comments at the cursor. -/
def body (c : Cursor) : List Char := (Trivia.split 0 c.rest).2

/-- The position behind the white space and comments at the cursor. -/
def start (c : Cursor) : Position := c.position.after (Trivia.split 0 c.rest).1

/--
Reads a token.  Words are read as identifiers; the cursor moves also if the token is malformed.
-/
def read (c : Cursor) : Except ScanError Token × Cursor :=
  let reading := Reading.of c.body
  (reading.outcome.map fun found => ⟨found.1, c.start, found.2⟩,
    ⟨reading.rest, c.start.after reading.text⟩)

theorem length_body_le (c : Cursor) : c.body.length ≤ c.rest.length := by
  have happend := congrArg List.length (Trivia.split_append 0 c.rest)
  rw [List.length_append] at happend
  unfold body
  omega

theorem length_read_lt (c : Cursor) (h : c.body ≠ []) : c.read.2.rest.length < c.rest.length := by
  refine Nat.lt_of_lt_of_le ?_ c.length_body_le
  obtain ⟨first, rest, hbody⟩ := List.exists_cons_of_ne_nil h
  simp only [read, hbody]
  exact Reading.length_of_rest_lt first rest

theorem read_of_body_nil {c : Cursor} (h : c.body = []) :
    c.read = (.ok ⟨.eof, c.start, ""⟩, ⟨[], c.start⟩) := by
  simp [read, h, Reading.of, Except.map, Position.after]

theorem length_lt_of_read {c next : Cursor} {t : Token} (h : c.read = (.ok t, next))
    (ht : t.kind ≠ .eof) : next.rest.length < c.rest.length := by
  have hbody : c.body ≠ [] := by
    intro hnil
    rw [read_of_body_nil hnil, Prod.mk.injEq, Except.ok.injEq] at h
    exact ht (by rw [← h.1])
  have hlt := c.length_read_lt hbody
  rwa [h] at hlt

/-- The tokens from a cursor on; `reserved` tells the reserved words apart. -/
def tokens (reserved : String → Option Keyword) (c : Cursor) : Except ScanError (List Token) :=
  match _h : c.read with
  | (.error e, _) => .error e
  | (.ok t, next) =>
    if _ht : t.kind = .eof then .ok [t]
    else match tokens reserved next with
      | .error e => .error e
      | .ok others => .ok (t.classify reserved :: others)
termination_by c.rest.length
decreasing_by exact length_lt_of_read _h _ht

end Cursor

/-- All tokens of a source text, the end of the source last; fails at the first malformed token. -/
def tokensOf (source : String) : Except ScanError (List Token) :=
  (Cursor.ofText source).tokens Keyword.ofSpelling?

end Oberon
