import Oberon.Proofs.Lexical.Comments
import Oberon.Proofs.Lexical.Printing

/-!
# The pieces of a source

A source that can be scanned is made up of pieces: each token with the white space and comments in
front of it.  Nothing is lost between them, and what is known of a token can be told from its place
and its text.

**Places.**  `placeBehind` counts the line feeds in front of a place, and the characters behind the
last of them.

**Main statement.**  `exists_pieces_of_tokensOf`.
-/

namespace Oberon

/-! ### Places -/

namespace Position

/-- One place stands before another one. -/
instance : LT Position where
  lt p q := p.line < q.line ∨ p.line = q.line ∧ p.column < q.column

theorem lt_trans {p q r : Position} (hfirst : p < q) (hsecond : q < r) : p < r := by
  obtain hline | ⟨hline, hcolumn⟩ := hfirst <;> obtain hline' | ⟨hline', hcolumn'⟩ := hsecond
  · exact Or.inl (by omega)
  · exact Or.inl (by omega)
  · exact Or.inl (by omega)
  · exact Or.inr ⟨by omega, by omega⟩

theorem lt_step (p : Position) (c : Char) : p < p.step c := by
  unfold step
  split
  · exact Or.inl (Nat.lt_succ_self _)
  · exact Or.inr ⟨rfl, Nat.lt_succ_self _⟩

theorem after_append (p : Position) (first second : List Char) :
    p.after (first ++ second) = (p.after first).after second :=
  List.foldl_append

theorem lt_after (p : Position) {text : List Char} (h : text ≠ []) : p < p.after text := by
  induction text generalizing p with
  | nil => exact absurd rfl h
  | cons c rest ih =>
    by_cases hrest : rest = []
    · rw [hrest]
      exact p.lt_step c
    · exact lt_trans (p.lt_step c) (ih (p.step c) hrest)

end Position

namespace Lexical

/--
The place behind a text: one line more than there are line feeds, one column more than there are
characters behind the last.
-/
def placeBehind (text : List Char) : Position where
  line := 1 + text.count '\n'
  column := 1 + (text.reverse.takeWhile (· != '\n')).length

theorem after_first (text : List Char) : Position.first.after text = placeBehind text := by
  induction text using List.reverseRecOn with
  | nil => rfl
  | append_singleton text c ih =>
    rw [Position.after_append, ih]
    change (placeBehind text).step c = _
    unfold Position.step placeBehind
    by_cases hc : c = '\n'
    · simp [hc]
      omega
    · simp [hc, List.count_append]
      omega

theorem placeBehind_append (before text : List Char) :
    placeBehind (before ++ text) = (placeBehind before).after text := by
  rw [← after_first, ← after_first, Position.after_append]

theorem placeBehind_lt_append (before : List Char) {text : List Char} (h : text ≠ []) :
    placeBehind before < placeBehind (before ++ text) := by
  rw [placeBehind_append]
  exact Position.lt_after _ h

/-! ### Texts and what they denote -/

/--
What a text in front of some other one denotes: a token of the grammar, a literal that is never
closed, or the end.
-/
inductive Denotes (behind : List Char) : List Char → Token.Kind × String → Prop
  | raw (raw : Raw) : Denotes behind raw.text raw.content
  | unclosed (quote : Quote) (body : List Char) (free : quote.mark ∉ body) :
      behind = [] → Denotes behind (quote.mark :: body) (Raw.quoted quote body free).content
  | eof : behind = [] → Denotes behind [] (.eof, "")

theorem of_unclosed
    (quote : Quote) (body : List Char) (free : quote.mark ∉ body) :
    (Reading.of (quote.mark :: body)).outcome =
      .ok (Token.unreserve (Raw.quoted quote body free).content) := by
  have hrun : ∀ c ∈ body, (c != quote.mark) = true := fun c hc => by
    simpa using fun h : c = quote.mark => free (h ▸ hc)
  have hbody : body.takeWhile (· != quote.mark) = body := List.takeWhile_eq_self_iff.2 hrun
  have hnone : body.dropWhile (· != quote.mark) = [] := List.dropWhile_eq_nil_iff.2 hrun
  have hof : Reading.of (quote.mark :: body) = Reading.quoted quote.kind quote.mark body := by
    cases quote <;> rfl
  rw [hof, Reading.quoted, hbody, hnone, Raw.unreserve_content (by simp)]
  rfl

section Denotes

variable {behind behind' text : List Char} {content content' : Token.Kind × String}

/-- What a text denotes is read of the text by itself. -/
theorem Denotes.outcome_eq (h : Denotes behind text content) :
    (Reading.of text).outcome = .ok (Token.unreserve content) := by
  cases h with
  | raw raw =>
    have hread := raw.of_text_append delimited_nil
    rw [List.append_nil] at hread
    rw [hread]
  | unclosed quote body free _ => exact of_unclosed quote body free
  | eof _ => rfl

theorem Denotes.content_classify
    (h : Denotes behind text content)
    {t : Token}
    (ht : t.content = Token.unreserve content) :
    (t.classify Keyword.ofSpelling?).content = content := by
  cases h with
  | raw raw => exact raw.content_classify ht
  | unclosed quote body free _ => exact Raw.content_classify _ ht
  | eof _ =>
    have hkind : t.kind = .eof := congrArg Prod.fst ht
    rw [Token.classify, if_neg (by simp [hkind])]
    exact ht

/-- A text denotes one thing only, whatever stands behind it. -/
theorem Denotes.unique
    (h : Denotes behind text content) (h' : Denotes behind' text content') :
    content' = content := by
  have hread := h.outcome_eq.symm.trans h'.outcome_eq
  rw [Except.ok.injEq] at hread
  let t : Token := ⟨(Token.unreserve content).1, .first, (Token.unreserve content).2⟩
  have hcontent := h.content_classify (t := t) rfl
  have hcontent' := h'.content_classify (t := t) hread
  exact hcontent'.symm.trans hcontent

/-- Only the end of the source has no text. -/
theorem Denotes.kind_eq_eof_iff (h : Denotes behind text content) :
    content.1 = .eof ↔ text = [] := by
  have hraw : ∀ raw : Raw, raw.content.1 ≠ .eof := by
    intro raw hend
    have hfits := raw.fits
    rw [hend] at hfits
    exact hfits
  cases h with
  | raw raw =>
    obtain ⟨c, rest, htext, -⟩ := raw.exists_text_eq_cons
    simp [hraw raw, htext]
  | unclosed quote body free _ => simp [hraw]
  | eof _ => simp

end Denotes

/-! ### Pieces -/

/-- A token with its text in the source and the white space and comments in front of it. -/
structure Piece where
  trivia : List Char
  raw : List Char
  token : Token

namespace Piece

def text (p : Piece) : List Char := p.trivia ++ p.raw

/-- The piece stands between two texts. -/
structure Stands (before : List Char) (p : Piece) (behind : List Char) : Prop where
  trivia : IsTrivia (p.raw ++ behind) p.trivia
  /-- All white space and comments in front of the token belong to the piece. -/
  starts : StartsToken (p.raw ++ behind)
  denotes : Denotes behind p.raw p.token.content
  /-- The text of the token determines its kind and its lexeme. -/
  determines : ∀ behind' content, Denotes behind' p.raw content → content = p.token.content
  /-- No longer text is that of a token. -/
  longest : ∀ raw : Raw, raw.text <+: p.raw ++ behind → raw.text <+: p.raw
  position : p.token.position = placeBehind (before ++ p.trivia)

end Piece

theorem position_classify (t : Token) (reserved : String → Option Keyword) :
    (t.classify reserved).position = t.position := by
  have hreserve : ∀ word, (t.reserve word).position = t.position := by
    intro word
    unfold Token.reserve
    split <;> rfl
  unfold Token.classify
  split
  · exact hreserve _
  · rfl

theorem denotes_of_outcome
    {input : List Char} {t : Token} (h : (Reading.of input).outcome = .ok t.content) :
    Denotes (Reading.of input).rest (Reading.of input).text
      (t.classify Keyword.ofSpelling?).content := by
  cases input with
  | nil =>
    have hend : Denotes [] [] (.eof, "") := .eof rfl
    rwa [hend.content_classify (Except.ok.inj h).symm]
  | cons c rest =>
    obtain ⟨raw, hcontent, htaken⟩ := recognizes_of c rest _ h
    rw [raw.content_classify hcontent]
    obtain htext | ⟨quote, body, free, rfl, htext, hrest⟩ := htaken
    · rw [htext]
      exact .raw raw
    · rw [htext]
      exact .unclosed quote body free hrest

/-- What is read at a cursor, with the reserved words told apart, is a piece. -/
theorem exists_piece_of_read
    {c next : Cursor}
    {t : Token}
    {before : List Char}
    (hposition : c.position = placeBehind before)
    (h : c.read = (.ok t, next)) :
    ∃ p : Piece,
      p.token = t.classify Keyword.ofSpelling? ∧
      c.rest = p.text ++ next.rest ∧
      p.Stands before next.rest ∧
      next.position = placeBehind (before ++ p.text) := by
  have houtcome := Cursor.outcome_of_read h
  have hsplit := Trivia.split_append 0 c.rest
  have hbody := Reading.of_append c.body
  have hstart : c.start = placeBehind (before ++ (Trivia.split 0 c.rest).1) := by
    rw [Cursor.start, hposition, placeBehind_append]
  have hread : t.position = c.start ∧
      next = ⟨(Reading.of c.body).rest, c.start.after (Reading.of c.body).text⟩ := by
    rw [Cursor.read, houtcome, Prod.mk.injEq] at h
    exact ⟨(congrArg Token.position (Except.ok.inj h.1)).symm, h.2.symm⟩
  obtain ⟨hplace, rfl⟩ := hread
  have hdenotes := denotes_of_outcome houtcome
  refine ⟨⟨(Trivia.split 0 c.rest).1, (Reading.of c.body).text, t.classify Keyword.ofSpelling?⟩,
    rfl, ?_, ⟨?_, ?_, hdenotes, fun _ _ => hdenotes.unique, fun raw hraw => ?_, ?_⟩, ?_⟩
  · change c.rest = _ ++ _ ++ _
    rw [List.append_assoc, hbody]
    exact hsplit.symm
  · dsimp only
    rw [hbody]
    exact isTrivia_split c.rest
  · dsimp only
    rw [hbody]
    exact startsToken_split 0 c.rest
  · dsimp only at hraw ⊢
    rw [hbody] at hraw
    obtain ⟨more, hmore⟩ := hraw
    rw [← hmore]
    exact raw.text_prefix_reading more
  · rw [← hstart, ← hplace]
    exact position_classify t _
  · change c.start.after _ = placeBehind (before ++ (_ ++ _))
    rw [← List.append_assoc, placeBehind_append, hstart]

/--
Pieces one behind the other up to the end of the source; `before` is the text in front of the first
one.
-/
inductive Laid : List Char → List Piece → Prop
  | last {before : List Char} {p : Piece} : p.Stands before [] → p.raw = [] → Laid before [p]
  | cons {before : List Char} {p : Piece} {pieces : List Piece} :
      p.Stands before (pieces.flatMap Piece.text) →
      p.raw ≠ [] →
      Laid (before ++ p.text) pieces →
      Laid before (p :: pieces)

theorem exists_laid_of_tokens
    {c : Cursor}
    {tokens : List Token}
    {before : List Char}
    (hposition : c.position = placeBehind before)
    (h : c.tokens Keyword.ofSpelling? = .ok tokens) :
    ∃ pieces : List Piece,
      c.rest = pieces.flatMap Piece.text ∧
      tokens = pieces.map Piece.token ∧
      Laid before pieces := by
  induction tokens generalizing c before with
  | nil =>
    obtain ⟨_, _, -, ⟨-, hnil⟩ | ⟨-, _, -, hnil⟩⟩ := Cursor.tokens_eq_ok_cases h
    · cases hnil
    · cases hnil
  | cons first tokens ih =>
    obtain ⟨t, next, hread, hcases⟩ := Cursor.tokens_eq_ok_cases h
    obtain ⟨p, htoken, hrest, hstands, hnext⟩ := exists_piece_of_read hposition hread
    have hend := hstands.denotes.kind_eq_eof_iff
    rw [htoken] at hend
    obtain ⟨hkind, hlist⟩ | ⟨hkind, others, hothers, hlist⟩ := hcases
    · have hclassify : t.classify Keyword.ofSpelling? = t := by simp [Token.classify, hkind]
      rw [hclassify] at htoken hend
      have hnone := Cursor.rest_eq_nil_of_read hread hkind
      rw [hnone] at hrest hstands
      exact ⟨[p], by simpa using hrest, by simp [hlist, htoken], .last hstands (hend.1 hkind)⟩
    · obtain ⟨rfl, rfl⟩ := List.cons.inj hlist
      obtain ⟨pieces, hsource, rfl, hlaid⟩ := ih hnext hothers
      rw [hsource] at hrest hstands
      refine ⟨p :: pieces, by simpa using hrest, by simp [htoken],
        .cons hstands (fun hraw => ?_) hlaid⟩
      have hclassified : (t.classify Keyword.ofSpelling?).kind = .eof := hend.2 hraw
      unfold Token.classify at hclassified
      split at hclassified
      · exact t.reserve_kind_ne_eof _ ‹_› hclassified
      · exact hkind hclassified

namespace Laid

variable {before : List Char} {pieces : List Piece}

theorem stands (h : Laid before pieces) :
    ∀ front p rest, pieces = front ++ p :: rest →
      p.Stands (before ++ front.flatMap Piece.text) (rest.flatMap Piece.text) := by
  induction h with
  | @last before p hstands _ =>
    intro front q rest heq
    obtain ⟨rfl, rfl, rfl⟩ : front = [] ∧ p = q ∧ rest = [] := by
      cases front with
      | nil => simpa [eq_comm] using heq
      | cons r front => simp at heq
    simpa using hstands
  | @cons before p pieces hstands _ _ ih =>
    intro front q rest heq
    cases front with
    | nil =>
      obtain ⟨rfl, rfl⟩ := List.cons.inj heq
      simpa using hstands
    | cons r front =>
      obtain ⟨rfl, hrest⟩ := List.cons.inj heq
      simpa using ih front q rest hrest

/-- Every token stands behind the text in front of the first one. -/
theorem exists_position (h : Laid before pieces) :
    ∀ p ∈ pieces, ∃ text, p.token.position = placeBehind (before ++ text) := by
  intro p hp
  obtain ⟨front, rest, hpieces⟩ := List.append_of_mem hp
  exact ⟨_, by rw [(h.stands front p rest hpieces).position, List.append_assoc]⟩

theorem pairwise_position (h : Laid before pieces) :
    pieces.Pairwise fun p q => p.token.position < q.token.position := by
  induction h with
  | last _ _ => simp
  | @cons before p pieces hstands hraw hlaid ih =>
    refine List.pairwise_cons.2 ⟨fun q hq => ?_, ih⟩
    obtain ⟨text, hposition⟩ := hlaid.exists_position q hq
    rw [hposition, hstands.position, Piece.text, ← List.append_assoc,
      List.append_assoc (before ++ p.trivia)]
    exact placeBehind_lt_append _ (by simp [hraw])

/-- The last token is the end of the source and stands behind all of it. -/
theorem exists_last (h : Laid before pieces) :
    ∃ front last,
      pieces = front ++ [last] ∧
      last.token.kind = .eof ∧
      last.token.position = placeBehind (before ++ pieces.flatMap Piece.text) ∧
      ∀ p ∈ front, p.token.kind ≠ .eof := by
  induction h with
  | @last before p hstands hraw =>
    refine ⟨[], p, rfl, hstands.denotes.kind_eq_eof_iff.2 hraw, ?_, by simp⟩
    simpa [Piece.text, hraw] using hstands.position
  | @cons before p pieces hstands hraw hlaid ih =>
    obtain ⟨front, last, rfl, hkind, hposition, hfront⟩ := ih
    refine ⟨p :: front, last, rfl, hkind, by simpa using hposition, fun q hq => ?_⟩
    obtain rfl | hq := List.mem_cons.1 hq
    · exact fun hend => hraw (hstands.denotes.kind_eq_eof_iff.1 hend)
    · exact hfront q hq

end Laid

end Lexical

open Lexical

/--
A source that can be scanned is made up of pieces, one for each token.  Each piece has white space
and comments and then the text of its token, which determines the token's kind and lexeme; the place
of the token is found by counting.  The places increase, and the last token alone is the end of the
source, behind all of it.
-/
theorem exists_pieces_of_tokensOf
    {source : String} {tokens : List Token} (h : tokensOf source = .ok tokens) :
    ∃ pieces : List Piece,
      source.toList = pieces.flatMap Piece.text ∧
      tokens = pieces.map Piece.token ∧
      (∀ front p rest, pieces = front ++ p :: rest →
        p.Stands (front.flatMap Piece.text) (rest.flatMap Piece.text)) ∧
      (tokens.Pairwise fun t u => t.position < u.position) ∧
      ∃ front last,
        tokens = front ++ [last] ∧
        last.kind = .eof ∧
        last.position = placeBehind source.toList ∧
        ∀ t ∈ front, t.kind ≠ .eof := by
  have hfirst : (Cursor.ofText source).position = placeBehind [] := rfl
  obtain ⟨pieces, hsource, rfl, hlaid⟩ := exists_laid_of_tokens hfirst h
  obtain ⟨front, last, rfl, hkind, hposition, hfront⟩ := hlaid.exists_last
  refine ⟨front ++ [last], hsource, rfl, hlaid.stands, List.pairwise_map.2 hlaid.pairwise_position,
    front.map Piece.token, last.token, by simp, hkind, ?_, by simpa using hfront⟩
  rw [hposition, ← hsource]
  rfl

/-- A comment inside another one over two lines, and a literal that is not closed. -/
theorem exists_pieces_of_tokensOf_unclosed :
    ∃ pieces : List Piece,
      pieces.flatMap Piece.text = "(*(**)\n*) x\n\"a\nb".toList ∧
      pieces.map (fun p => (p.token.content, p.token.position)) =
        [((.identifier, "x"), ⟨2, 4⟩), ((.stringLiteral, "\"a\nb\""), ⟨3, 1⟩),
          ((.eof, ""), ⟨4, 2⟩)] ∧
      ∀ front p rest, pieces = front ++ p :: rest →
        p.Stands (front.flatMap Piece.text) (rest.flatMap Piece.text) := by
  have hchecked : (tokensOf "(*(**)\n*) x\n\"a\nb").toOption.map
        (List.map fun t => (t.content, t.position)) =
      some [((.identifier, "x"), ⟨2, 4⟩), ((.stringLiteral, "\"a\nb\""), ⟨3, 1⟩),
        ((.eof, ""), ⟨4, 2⟩)] := by
    decide +kernel
  obtain ⟨tokens, htokens, hcontents⟩ := Option.map_eq_some_iff.1 hchecked
  obtain ⟨pieces, hsource, rfl, hstands, -⟩ :=
    exists_pieces_of_tokensOf (Grammar.toOption_eq_some_iff.1 htokens)
  rw [List.map_map] at hcontents
  exact ⟨pieces, hsource.symm, hcontents, hstands⟩

end Oberon
