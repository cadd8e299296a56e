import Oberon.Proofs.Scanning
import Oberon.Proofs.Lexical.Malformed

/-!
# The lines of scan errors

A compilation that fails for a malformed token has read the tokens in front of it, and the line of
the error is the one that the scanner has come to.

**Flaws.**  A `Flaw` is a malformed text with the white space and comments in front of it, as a
`Piece` is a token with them.  Up to the flaw a source is made up of pieces
(`exists_pieces_of_scans`), and the flaw ends on the line that it begins on.

**The first token.**  A flaw that no token stands in front of is found before the compilation has
started.  It is reported on the first line, wherever it stands.

**Main statement.**  `line_of_scan_error`.
-/

namespace Oberon
namespace Lexical

/-- A malformed text and the white space and comments in front of it. -/
structure Flaw where
  trivia : List Char
  raw : List Char
  error : ScanError

namespace Flaw

def text (f : Flaw) : List Char := f.trivia ++ f.raw

/-- The flaw stands in front of a text. -/
structure Stands (f : Flaw) (behind : List Char) : Prop where
  trivia : IsTrivia (f.raw ++ behind) f.trivia
  /-- All white space and comments in front of the malformed text belong to the flaw. -/
  starts : StartsToken (f.raw ++ behind)
  malformed : Malformed behind f.error f.raw

/-- Behind a flaw is the line that its malformed text stands on. -/
theorem Stands.line_eq {f : Flaw} {behind : List Char} (h : f.Stands behind) (before : List Char) :
    (placeBehind (before ++ f.text)).line = 1 + (before ++ f.trivia).count '\n' := by
  have hraw := List.count_eq_zero.2 (h.malformed.not_mem h.starts)
  simp [placeBehind, text, hraw]

end Flaw

/-- Where the scanner fails there is a flaw. -/
theorem exists_flaw_of_read
    {c next : Cursor}
    {e : ScanError}
    {before : List Char}
    (hposition : c.position = placeBehind before)
    (h : c.read = (.error e, next)) :
    ∃ f : Flaw,
      f.error = e ∧
      c.rest = f.text ++ next.rest ∧
      f.Stands next.rest ∧
      next.position = placeBehind (before ++ f.text) := by
  have hsplit := Trivia.split_append 0 c.rest
  have hbody := Reading.of_append c.body
  unfold Cursor.read at h
  cases houtcome : (Reading.of c.body).outcome with
  | ok found => simp [houtcome, Except.map] at h
  | error found =>
    simp only [houtcome, Except.map, Prod.mk.injEq, Except.error.injEq] at h
    obtain ⟨rfl, rfl⟩ := h
    refine ⟨⟨(Trivia.split 0 c.rest).1, (Reading.of c.body).text, found⟩, rfl, ?_,
      ⟨?_, ?_, malformed_of_outcome houtcome⟩, ?_⟩
    · change c.rest = _ ++ _ ++ _
      rw [List.append_assoc, hbody]
      exact hsplit.symm
    · dsimp only
      rw [hbody]
      exact isTrivia_split c.rest
    · dsimp only
      rw [hbody]
      exact startsToken_split 0 c.rest
    · change c.start.after _ = placeBehind (before ++ (_ ++ _))
      rw [← List.append_assoc, placeBehind_append, placeBehind_append, ← hposition]
      rfl

end Lexical

open Lexical

theorem Cursor.read_of_answer_error
    {c : Cursor} {e : ScanError} (h : c.answer .reserved = .error (.malformed e)) :
    c.read = (.error e, c.read.2) := by
  rw [answer_reserved] at h
  cases hread : c.read with
  | mk outcome next =>
    rw [hread] at h
    cases outcome with
    | error found =>
      cases h
      rfl
    | ok t => cases h

theorem Cursor.exists_read_of_answer_ok
    {c : Cursor} {token : Token} (h : c.answer .reserved = .ok token) :
    ∃ t, c.read = (.ok t, c.read.2) := by
  rw [answer_reserved] at h
  cases hread : c.read with
  | mk outcome next =>
    rw [hread] at h
    cases outcome with
    | error e => cases h
    | ok t => exact ⟨t, rfl⟩

theorem Scans.snoc
    {c d : Cursor}
    {answers : List (Except ScanHalt Token)}
    {answer : Except ScanHalt Token}
    (h : Scans c (answers ++ [answer]) d) :
    ∃ b, Scans c answers b ∧ b.answer .reserved = answer ∧ d = b.read.2 := by
  induction answers generalizing c with
  | nil => exact ⟨c, rfl, h.1, h.2⟩
  | cons first answers ih =>
    obtain ⟨b, hb, hlast⟩ := ih h.2
    exact ⟨b, ⟨h.1, hb⟩, hlast⟩

/-- Tokens one behind the other are pieces. -/
theorem exists_pieces_of_scans
    {c d : Cursor}
    {answers : List (Except ScanHalt Token)}
    {before : List Char}
    (hposition : c.position = placeBehind before)
    (h : Scans c answers d)
    (htokens : Compilation.AllTokens answers) :
    ∃ pieces : List Piece,
      pieces.length = answers.length ∧
      c.rest = pieces.flatMap Piece.text ++ d.rest ∧
      d.position = placeBehind (before ++ pieces.flatMap Piece.text) ∧
      ∀ front p rest, pieces = front ++ p :: rest →
        p.Stands (before ++ front.flatMap Piece.text) (rest.flatMap Piece.text ++ d.rest) := by
  induction answers generalizing c before with
  | nil =>
    obtain rfl : d = c := h
    exact ⟨[], rfl, by simp, by simpa using hposition, by simp⟩
  | cons answer answers ih =>
    obtain ⟨token, rfl⟩ := htokens answer List.mem_cons_self
    obtain ⟨t, hread⟩ := Cursor.exists_read_of_answer_ok h.1
    obtain ⟨p, -, hrest, hstands, hnext⟩ := exists_piece_of_read hposition hread
    have hothers : Compilation.AllTokens answers :=
      fun answer hanswer => htokens answer (List.mem_cons_of_mem _ hanswer)
    obtain ⟨pieces, hlength, hbehind, hend, hall⟩ := ih hnext h.2 hothers
    rw [hbehind] at hrest hstands
    refine ⟨p :: pieces, by simp [hlength], by simpa using hrest, by simpa using hend,
      fun front q rest heq => ?_⟩
    cases front with
    | nil =>
      obtain ⟨rfl, rfl⟩ := List.cons.inj heq
      simpa using hstands
    | cons r front =>
      obtain ⟨rfl, hpieces⟩ := List.cons.inj heq
      simpa using hall front q rest hpieces

namespace Compilation

/-- From its start on a compilation gets the answers of the scanner one by one. -/
theorem follows_wholeModule
    {source : String}
    (header : String)
    {limits : Limits}
    {start : State}
    (h : State.start source limits = .ok start) :
    Follows (Cursor.ofText source) (start.answers (wholeModule header))
      ((wholeModule header).perform start) := by
  have hcases := start_cases source limits
  rw [h] at hcases
  have hhonors := @honors_wholeModule reservedEntries (start.remaining + 1) header
  refine .cons hcases (follows_run _ _ start fun moment u hu => ?_)
  exact ((hhonors.comes (start_spec h).1 hu).1).agrees

/--
A compilation that halts for a malformed token behind the first one has come to it behind tokens.
-/
theorem exists_scans_of_halt
    {source header : String}
    {limits : Limits}
    {start t : State}
    {e : ScanError}
    (hstart : State.start source limits = .ok start)
    (h : (wholeModule header).perform start = .error (.rejected (.scan e)) t) :
    ∃ answers b,
      answers ≠ [] ∧
      AllTokens answers ∧
      Scans (Cursor.ofText source) answers b ∧
      b.read = (.error e, t.cursor) := by
  have hfollows := follows_wholeModule header hstart
  rw [h] at hfollows
  obtain ⟨hscans, ⟨-, hhalt⟩ | ⟨front, found, hfront, hanswers, heq⟩ | ⟨fault, heq⟩⟩ := hfollows
  · exact absurd rfl (hhalt e)
  · cases heq
    rw [hanswers] at hscans
    obtain ⟨b, hb, hlast, hcursor⟩ := hscans.snoc
    refine ⟨front, b, ?_, hfront, hb, ?_⟩
    · rintro rfl
      cases hanswers
    · rw [hcursor]
      exact Cursor.read_of_answer_error hlast
  · cases heq

end Compilation

open Compilation in
/--
A compilation that fails for a malformed token has come to it behind tokens.  If there are any, the
line of the error is the one that the malformed text stands on; otherwise it is the first line, so
that it is the right one only if no line feed stands in front of the malformed text.
-/
theorem line_of_scan_error
    {name source header : String}
    {limits : Limits}
    {line : Nat}
    {e : ScanError}
    (h : compile name source header limits = .error ⟨name, line, .rejected (.scan e)⟩) :
    ∃ (pieces : List Piece) (flaw : Flaw) (behind : List Char),
      source.toList = pieces.flatMap Piece.text ++ flaw.text ++ behind ∧
      (∀ front p rest, pieces = front ++ p :: rest →
        p.Stands (front.flatMap Piece.text) (rest.flatMap Piece.text ++ (flaw.text ++ behind))) ∧
      flaw.Stands behind ∧
      flaw.error = e ∧
      line =
        (if pieces = [] then 1 else 1 + (pieces.flatMap Piece.text ++ flaw.trivia).count '\n') ∧
      (line = 1 + (pieces.flatMap Piece.text ++ flaw.trivia).count '\n' ↔
        pieces ≠ [] ∨ '\n' ∉ flaw.trivia) := by
  have hcases := start_cases source limits
  have hfirst : (Cursor.ofText source).position = placeBehind [] := rfl
  unfold compile at h
  cases hstart : State.start source limits with
  | error halt =>
    rw [hstart] at hcases h
    cases h
    obtain ⟨_, heq⟩ | ⟨found, heq, hanswer⟩ := hcases
    · cases heq
    · cases heq
      obtain ⟨flaw, herror, hrest, hflaw, -⟩ :=
        exists_flaw_of_read hfirst (Cursor.read_of_answer_error hanswer)
      refine ⟨[], flaw, _, hrest, by simp, hflaw, herror, by simp, ?_⟩
      simp [List.count_eq_zero]
  | ok start =>
    rw [hstart] at h
    dsimp only at h
    cases hperform : (wholeModule header).perform start with
    | ok _ t =>
      rw [hperform] at h
      cases h
    | error halt t =>
      rw [hperform] at h
      cases h
      obtain ⟨answers, b, hne, htokens, hscans, hread⟩ := exists_scans_of_halt hstart hperform
      obtain ⟨pieces, hlength, hsource, hposition, hstands⟩ :=
        exists_pieces_of_scans hfirst hscans htokens
      obtain ⟨flaw, herror, hrest, hflaw, hplace⟩ := exists_flaw_of_read hposition hread
      have hpieces : pieces ≠ [] := by
        rintro rfl
        exact hne (List.length_eq_zero_iff.1 hlength.symm)
      have hline : t.line = 1 + (pieces.flatMap Piece.text ++ flaw.trivia).count '\n' := by
        unfold State.line
        rw [hplace]
        exact hflaw.line_eq _
      rw [hrest] at hsource hstands
      refine ⟨pieces, flaw, t.cursor.rest, by rw [List.append_assoc]; exact hsource, hstands, hflaw,
        herror, ?_, ?_⟩
      · rw [if_neg hpieces, hline]
      · simp [hline, hpieces]

/--
Behind a comment alone a character on the second line is reported on the first one.  Behind tokens,
a comment and a string over two lines it is reported on its own line.
-/
theorem line_of_scan_error_behind_comments :
    (compile "M.Mod" "(**)\n?" "M.h" {} =
        .error ⟨"M.Mod", 1, .rejected (.scan (.unknownCharacter '?'))⟩ ∧
      ∃ (pieces : List Piece) (flaw : Flaw) (behind : List Char),
        "(**)\n?".toList = pieces.flatMap Piece.text ++ flaw.text ++ behind ∧
        flaw.Stands behind ∧
        flaw.error = .unknownCharacter '?' ∧
        (1 = 1 + (pieces.flatMap Piece.text ++ flaw.trivia).count '\n' ↔
          pieces ≠ [] ∨ '\n' ∉ flaw.trivia)) ∧
    compile "M.Mod" "MODULE M;(**)\nCONST c=\"a\nb\"\n?" "M.h" {} =
        .error ⟨"M.Mod", 4, .rejected (.scan (.unknownCharacter '?'))⟩ ∧
      ∃ (pieces : List Piece) (flaw : Flaw) (behind : List Char),
        "MODULE M;(**)\nCONST c=\"a\nb\"\n?".toList =
          pieces.flatMap Piece.text ++ flaw.text ++ behind ∧
        flaw.Stands behind ∧
        flaw.error = .unknownCharacter '?' ∧
        4 = 1 + (pieces.flatMap Piece.text ++ flaw.trivia).count '\n' := by
  constructor
  · have hfails : compile "M.Mod" "(**)\n?" "M.h" {} =
        .error ⟨"M.Mod", 1, .rejected (.scan (.unknownCharacter '?'))⟩ := by
      decide +kernel
    obtain ⟨pieces, flaw, behind, hsource, -, hflaw, herror, -, hline⟩ := line_of_scan_error hfails
    exact ⟨hfails, pieces, flaw, behind, hsource, hflaw, herror, hline⟩
  · have hfails : compile "M.Mod" "MODULE M;(**)\nCONST c=\"a\nb\"\n?" "M.h" {} =
        .error ⟨"M.Mod", 4, .rejected (.scan (.unknownCharacter '?'))⟩ := by
      decide +kernel
    obtain ⟨pieces, flaw, behind, hsource, -, hflaw, herror, hline, -⟩ := line_of_scan_error hfails
    refine ⟨hfails, pieces, flaw, behind, hsource, hflaw, herror, ?_⟩
    split at hline
    · cases hline
    · exact hline

end Oberon
