import Oberon.Proofs.Lexical.Recognition

/-!
# Printed tokens

Tokens can be printed and scanned again.  Every token of a source has a lexeme that fits its kind.
Conversely, tokens with such lexemes can be printed with single blanks between them, and the text
has just these tokens, up to their places.

**Main statement.**  `tokensOf_printed`.
-/

namespace Oberon
namespace Lexical

/-! ### Where a token begins -/

theorem isBlank_of_isAlphanum {c : Char} (h : c.isAlphanum = true) : Text.isBlank c = false := by
  have hcode : 48 ≤ c.toNat ∧ c.toNat ≤ 122 := by
    have hclasses : c.isAlphanum =
        (decide ('A'.val ≤ c.val ∧ c.val ≤ 'Z'.val) ||
          (decide ('a'.val ≤ c.val) && decide (c.val ≤ 'z'.val)) ||
          (decide ('0'.val ≤ c.val) && decide (c.val ≤ '9'.val))) := rfl
    simp only [hclasses, Bool.or_eq_true, Bool.and_eq_true, decide_eq_true_eq,
      UInt32.le_iff_toNat_le] at h
    change ((65 ≤ c.toNat ∧ c.toNat ≤ 90) ∨ (97 ≤ c.toNat ∧ c.toNat ≤ 122)) ∨
      (48 ≤ c.toNat ∧ c.toNat ≤ 57) at h
    omega
  simp [Text.isBlank, Text.blankRanges]
  omega

theorem split_zero_cons
    {c : Char}
    {rest : List Char}
    (hblank : Text.isBlank c = false)
    (hopen : c = '(' → Stops (· == '*') rest) :
    Trivia.split 0 (c :: rest) = ([], c :: rest) := by
  unfold Trivia.split
  split
  · rename_i heq
    cases heq
  · rename_i heq
    obtain ⟨rfl, rfl⟩ := List.cons.inj heq
    exact absurd (hopen rfl '*' rfl) (by decide)
  · rename_i heq
    obtain ⟨rfl, rfl⟩ := List.cons.inj heq
    rw [hblank]
    rfl
  · rename_i hdepth _
    cases hdepth
  · rename_i hdepth _
    cases hdepth
  · rename_i hdepth _
    cases hdepth

/-- A token begins with no white space, and only a parenthesis by itself begins with one. -/
theorem Raw.exists_text_eq_cons (raw : Raw) :
    ∃ c rest, raw.text = c :: rest ∧ Text.isBlank c = false ∧ (c = '(' → rest = []) := by
  have halphanumeric : ∀ c rest, raw.text = c :: rest → c.isAlphanum = true →
      ∃ c rest, raw.text = c :: rest ∧ Text.isBlank c = false ∧ (c = '(' → rest = []) := by
    intro c rest htext hc
    refine ⟨c, rest, htext, isBlank_of_isAlphanum hc, ?_⟩
    rintro rfl
    cases hc
  have hdigit : ∀ {c : Char}, c.isDigit = true → c.isAlphanum = true :=
    fun h => by simp [Char.isAlphanum, h]
  cases raw with
  | name n free => exact halphanumeric _ _ rfl (isAlphanum_of_isAlpha n.head_first)
  | keyword word =>
    obtain ⟨n, hn⟩ := exists_name_of_keyword word
    exact halphanumeric _ _ hn.symm (isAlphanum_of_isAlpha n.head_first)
  | decimal digits => exact halphanumeric _ _ rfl (hdigit digits.head_first)
  | hexadecimal use digits => exact halphanumeric _ _ rfl (hdigit digits.head_first)
  | real r => exact halphanumeric _ _ rfl (hdigit r.whole.head_first)
  | quoted quote body free =>
    refine ⟨quote.mark, body ++ [quote.mark], rfl, by cases quote <;> decide, fun h => ?_⟩
    cases quote <;> cases h
  | sign s => cases s <;> exact ⟨_, _, rfl, by decide, by decide⟩

theorem Raw.split_text_append (raw : Raw) {more : List Char} (hmore : Delimited more) :
    Trivia.split 0 (raw.text ++ more) = ([], raw.text ++ more) := by
  obtain ⟨c, rest, htext, hblank, hopen⟩ := raw.exists_text_eq_cons
  rw [htext, List.cons_append]
  refine split_zero_cons hblank fun hc => ?_
  rw [hopen hc]
  exact hmore.stops (by decide)

/-! ### Printed tokens are read -/

/-- The texts of tokens with single blanks between them. -/
def joined (raws : List Raw) : List Char := [' '].intercalate (raws.map Raw.text)

/-- Behind the first of some tokens stands nothing, or a blank and the others. -/
theorem exists_joined_cons (raw : Raw) (others : List Raw) :
    ∃ behind,
      joined (raw :: others) = raw.text ++ behind ∧
      (behind = [] ∧ others = [] ∨ behind = ' ' :: joined others) := by
  cases others with
  | nil => exact ⟨[], by simp [joined], Or.inl ⟨rfl, rfl⟩⟩
  | cons second others =>
    exact ⟨' ' :: joined (second :: others), by simp [joined, List.intercalate_cons_cons],
      Or.inr rfl⟩

theorem split_joined (raws : List Raw) : Trivia.split 0 (joined raws) = ([], joined raws) := by
  cases raws with
  | nil => rfl
  | cons raw others =>
    obtain ⟨behind, hjoined, hbehind⟩ := exists_joined_cons raw others
    rw [hjoined]
    refine raw.split_text_append ?_
    obtain ⟨rfl, -⟩ | rfl := hbehind <;> simp [Delimited]

/-- What is read where the text of a token begins. -/
theorem exists_read_of_body
    {c : Cursor}
    {raw : Raw}
    {more : List Char}
    (hbody : c.body = raw.text ++ more)
    (hmore : Delimited more) :
    ∃ t behind,
      c.read = (.ok t, behind) ∧ t.content = Token.unreserve raw.content ∧ behind.rest = more := by
  have hreading := raw.of_text_append hmore
  rw [← hbody] at hreading
  refine ⟨⟨(Token.unreserve raw.content).1, c.start, (Token.unreserve raw.content).2⟩,
    ⟨more, c.start.after raw.text⟩, ?_, rfl, rfl⟩
  unfold Cursor.read
  rw [hreading]
  rfl

theorem Raw.unreserve_ne_eof (raw : Raw) : (Token.unreserve raw.content).1 ≠ .eof := by
  unfold Token.unreserve
  rw [raw.wordBehind?_content]
  cases raw with
  | hexadecimal use digits => cases use <;> simp [Raw.content, HexUse.kind]
  | quoted quote body free => cases quote <;> simp [Raw.content, Quote.kind]
  | _ => simp [Raw.content]

theorem exists_tokens_of_body {c : Cursor} (raws : List Raw) (h : c.body = joined raws) :
    ∃ tokens, c.tokens Keyword.ofSpelling? = .ok tokens ∧
      tokens.map Token.content = raws.map Raw.content ++ [(.eof, "")] := by
  induction raws generalizing c with
  | nil =>
    have hread := Cursor.read_of_body_nil (c := c) h
    refine ⟨[⟨.eof, c.start, ""⟩], ?_, rfl⟩
    rw [Cursor.tokens_of_read _ hread]
    rfl
  | cons raw others ih =>
    obtain ⟨behind, hjoined, hbehind⟩ := exists_joined_cons raw others
    have hdelimited : Delimited behind := by
      obtain ⟨rfl, -⟩ | rfl := hbehind <;> simp [Delimited]
    have hsplit : (Trivia.split 0 behind).2 = joined others := by
      obtain ⟨rfl, rfl⟩ | rfl := hbehind
      · rfl
      · change (Trivia.split 0 (joined others)).2 = joined others
        rw [split_joined]
    obtain ⟨t, next, hread, hcontent, hrest⟩ := exists_read_of_body (h.trans hjoined) hdelimited
    obtain ⟨tokens, htokens, hcontents⟩ := ih (c := next) (by rw [Cursor.body, hrest, hsplit])
    have hkind : t.kind ≠ .eof := by
      have hne := raw.unreserve_ne_eof
      rwa [← hcontent] at hne
    refine ⟨t.classify Keyword.ofSpelling? :: tokens, ?_, ?_⟩
    · rw [Cursor.tokens_of_read _ hread, if_neg hkind, htokens]
      rfl
    · rw [List.map_cons, hcontents, raw.content_classify hcontent]
      rfl

/-! ### Tokens have lexemes that fit -/

theorem wellFormed_of_read
    {c behind : Cursor}
    {t : Token}
    (h : c.read = (.ok t, behind))
    (ht : t.kind ≠ .eof) :
    (t.classify Keyword.ofSpelling?).WellFormed := by
  have houtcome := Cursor.outcome_of_read h
  cases hbody : c.body with
  | nil =>
    rw [Cursor.read_of_body_nil hbody, Prod.mk.injEq, Except.ok.injEq] at h
    exact absurd (by rw [← h.1]) ht
  | cons first rest =>
    rw [hbody] at houtcome
    obtain ⟨raw, hcontent, -⟩ := recognizes_of first rest _ houtcome
    have hfits := raw.fits
    rwa [← raw.content_classify hcontent] at hfits

theorem wellFormed_of_tokens
    {c : Cursor} {tokens : List Token} (h : c.tokens Keyword.ofSpelling? = .ok tokens) :
    ∀ t ∈ tokens, t.kind ≠ .eof → t.WellFormed := by
  induction tokens generalizing c with
  | nil => simp
  | cons first tokens ih =>
    obtain ⟨t, behind, hread, ⟨hend, hlist⟩ | ⟨hkind, others, hothers, hlist⟩⟩ :=
      Cursor.tokens_eq_ok_cases h
    · obtain ⟨rfl, rfl⟩ := List.cons.inj hlist
      simp [hend]
    · obtain ⟨rfl, rfl⟩ := List.cons.inj hlist
      intro u hu hend
      obtain rfl | hu := List.mem_cons.1 hu
      · exact wellFormed_of_read hread hkind
      · exact ih hothers u hu hend

end Lexical

open Lexical

/--
Printing tokens and scanning a text are inverse to each other: the tokens of a source have lexemes
that fit their kinds, and tokens with such lexemes, printed with single blanks between them, are the
tokens of the text, with the end of the source behind them.
-/
theorem tokensOf_printed :
    (∀ source tokens, tokensOf source = .ok tokens → ∀ t ∈ tokens, t.kind ≠ .eof → t.WellFormed) ∧
      ∀ list : List Token, (∀ t ∈ list, t.WellFormed) →
        ∃ tokens, tokensOf (" ".intercalate (list.map Token.print)) = .ok tokens ∧
          tokens.map Token.content = list.map Token.content ++ [(.eof, "")] := by
  refine ⟨fun source tokens htokens => wellFormed_of_tokens htokens, fun list hlist => ?_⟩
  have hraws : ∃ raws : List Raw, raws.map Raw.content = list.map Token.content := by
    induction list with
    | nil => exact ⟨[], rfl⟩
    | cons t list ih =>
      obtain ⟨raws, hraws⟩ := ih fun u hu => hlist u (List.mem_cons_of_mem _ hu)
      obtain ⟨raw, hraw⟩ := exists_raw_of_fits (hlist t List.mem_cons_self)
      exact ⟨raw :: raws, by rw [List.map_cons, List.map_cons, hraws, hraw]; rfl⟩
  obtain ⟨raws, hraws⟩ := hraws
  have htexts : (list.map Token.print).map String.toList = raws.map Raw.text := by
    have hprinted := congrArg (List.map Token.printed) hraws
    simpa [Token.print, Function.comp_def, Raw.printed_content] using hprinted.symm
  have hsource : (Cursor.ofText (" ".intercalate (list.map Token.print))).body = joined raws := by
    unfold Cursor.body Cursor.ofText
    rw [String.toList_intercalate, htexts]
    change (Trivia.split 0 (joined raws)).2 = joined raws
    rw [split_joined]
  rw [← hraws]
  exact exists_tokens_of_body raws hsource

/--
A real number, a character in hexadecimal digits and a literal that is not closed have lexemes that
fit; printed again, the literal is closed.
-/
theorem tokensOf_printed_literals :
    ∃ tokens, tokensOf "1.E+2 0AX(**)\"a" = .ok tokens ∧ (∀ t ∈ tokens.dropLast, t.WellFormed) ∧
      " ".intercalate (tokens.dropLast.map Token.print) = "1.E+2 0AX \"a\"" ∧
      ∃ again, tokensOf (" ".intercalate (tokens.dropLast.map Token.print)) = .ok again ∧
        again.map Token.content = tokens.dropLast.map Token.content ++ [(.eof, "")] := by
  have hchecked : (tokensOf "1.E+2 0AX(**)\"a").toOption.map (List.map Token.content) =
      some [(.number .real, "1.E+2"), (.charLiteral, "0x0A"), (.stringLiteral, "\"a\""),
        (.eof, "")] := by
    decide +kernel
  obtain ⟨tokens, htokens, hcontents⟩ := Option.map_eq_some_iff.1 hchecked
  rw [Grammar.toOption_eq_some_iff] at htokens
  have hfront : tokens.dropLast.map Token.content =
      [(.number .real, "1.E+2"), (.charLiteral, "0x0A"), (.stringLiteral, "\"a\"")] := by
    rw [List.map_dropLast, hcontents]
    rfl
  have hprinted : tokens.dropLast.map Token.print = ["1.E+2", "0AX", "\"a\""] := by
    have hprint := congrArg (List.map fun content => String.ofList (Token.printed content)) hfront
    rw [List.map_map] at hprint
    exact hprint.trans rfl
  have hwellFormed : ∀ t ∈ tokens.dropLast, t.WellFormed := by
    intro t ht
    refine tokensOf_printed.1 _ _ htokens t (List.dropLast_subset _ ht) fun hend => ?_
    have hmem := List.mem_map_of_mem (f := Token.content) ht
    rw [hfront] at hmem
    simp [Token.content, hend] at hmem
  exact ⟨tokens, htokens, hwellFormed, by rw [hprinted]; rfl, tokensOf_printed.2 _ hwellFormed⟩

end Oberon
