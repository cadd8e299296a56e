import Oberon.Proofs.Lexical.Raw

/-!
# Recognition of tokens

Reading a text against the lexical grammar.

**Main statements.**
* `Raw.of_text_append`: in front of a blank, or at the end, the text of a raw token is read as that
  token.
* `recognizes_of`: whatever is read is a raw token; only a quoted literal at the end may lack its
  closing quote.
* `Raw.text_prefix_reading`: the text of a raw token is taken whole, whatever stands behind it, so a
  reading is the longest one.
-/

namespace Oberon
namespace Lexical

open Reading

/-- No character of a class stands in front. -/
def Stops (p : Char → Bool) (text : List Char) : Prop := ∀ c ∈ text.head?, p c = false

/-- The text is empty or begins with a blank. -/
def Delimited (text : List Char) : Prop := ∀ c ∈ text.head?, c = ' '

theorem Delimited.stops
    {text : List Char}
    (h : Delimited text)
    {p : Char → Bool}
    (hp : p ' ' = false) :
    Stops p text := by
  intro c hc
  rw [h c hc, hp]

theorem delimited_nil : Delimited [] := by
  simp [Delimited]

theorem stops_cons
    {p : Char → Bool}
    {c : Char}
    (h : p c = false)
    (rest : List Char) :
    Stops p (c :: rest) := by
  intro d hd
  obtain rfl : c = d := by simpa using hd
  exact h

/-- A text that does not begin with a character. -/
theorem stops_beq
    {c : Char} {text : List Char} (h : ∀ rest, text ≠ c :: rest) :
    Stops (· == c) text := by
  intro d hd
  obtain ⟨rest, rfl⟩ := List.head?_eq_some_iff.1 hd
  rw [beq_eq_false_iff_ne]
  rintro rfl
  exact h rest rfl

theorem Stops.or {p q : Char → Bool} {text : List Char} (hp : Stops p text) (hq : Stops q text) :
    Stops (fun c => p c || q c) text := by
  intro c hc
  simp [hp c hc, hq c hc]

/-! ### Runs of characters -/

theorem takeWhile_append_of_stops
    {p : Char → Bool}
    {text more : List Char}
    (htext : ∀ c ∈ text, p c = true)
    (hmore : Stops p more) :
    (text ++ more).takeWhile p = text := by
  rw [List.takeWhile_append_of_pos htext]
  cases more with
  | nil => simp
  | cons c more => simp [hmore c rfl]

theorem dropWhile_append_of_stops
    {p : Char → Bool}
    {text more : List Char}
    (htext : ∀ c ∈ text, p c = true)
    (hmore : Stops p more) :
    (text ++ more).dropWhile p = more := by
  rw [List.dropWhile_append_of_pos htext]
  cases more with
  | nil => simp
  | cons c more => simp [hmore c rfl]

theorem stops_dropWhile (p : Char → Bool) (text : List Char) : Stops p (text.dropWhile p) := by
  intro c hc
  have hhead := List.head?_dropWhile_not p text
  rw [Option.mem_def.1 hc] at hhead
  exact hhead

theorem isHexDigit_of_isDigit {c : Char} (h : c.isDigit = true) : isHexDigit c = true := by
  simp [isHexDigit, h]

theorem isAlphanum_of_isAlpha {c : Char} (h : c.isAlpha = true) : c.isAlphanum = true := by
  simp [Char.isAlphanum, h]

theorem isAlpha_of_isDigit {c : Char} (h : c.isDigit = true) : c.isAlpha = false := by
  -- Digits stand before letters in the character set.
  have halpha : c.isAlpha =
      (decide ('A'.val ≤ c.val ∧ c.val ≤ 'Z'.val) ||
        (decide ('a'.val ≤ c.val) && decide (c.val ≤ 'z'.val))) := rfl
  have hdigit : c.val ≤ '9'.val := of_decide_eq_true (Bool.and_eq_true_iff.1 h).2
  have hupper : ¬ 'A'.val ≤ c.val := fun hlow => absurd (UInt32.le_trans hlow hdigit) (by decide)
  have hlower : ¬ 'a'.val ≤ c.val := fun hlow => absurd (UInt32.le_trans hlow hdigit) (by decide)
  rw [halpha, decide_eq_false fun h => hupper h.1, decide_eq_false hlower, Bool.false_and,
    Bool.or_false]

namespace Run

variable {head tail : Char → Bool}

theorem tail_text (r : Run head tail) (hsub : ∀ c, head c = true → tail c = true) :
    ∀ c ∈ r.text, tail c = true := by
  intro c hc
  obtain rfl | hc := List.mem_cons.1 hc
  · exact hsub _ r.head_first
  · exact r.tail_others c hc

/-- A first character and the run behind it. -/
def ofTakeWhile (first : Char) (rest : List Char) (h : head first = true) : Run head tail :=
  ⟨first, rest.takeWhile tail, h, fun _ hc => List.mem_takeWhile_imp hc⟩

theorem text_ofTakeWhile
    {first : Char}
    (rest : List Char)
    (h : head first = true)
    (hsub : ∀ c, head c = true → tail c = true) :
    (ofTakeWhile first rest h : Run head tail).text = (first :: rest).takeWhile tail := by
  simp [ofTakeWhile, text, hsub first h]

end Run

theorem HexDigits.isHexDigit_text (digits : HexDigits) : ∀ c ∈ digits.text, isHexDigit c = true :=
  digits.tail_text fun _ => isHexDigit_of_isDigit

theorem Digits.isDigit_text (digits : Digits) : ∀ c ∈ digits.text, c.isDigit = true :=
  digits.tail_text fun _ => id

theorem Digits.isHexDigit_text (digits : Digits) : ∀ c ∈ digits.text, isHexDigit c = true :=
  fun c hc => isHexDigit_of_isDigit (Digits.isDigit_text digits c hc)

theorem Name.isAlphanum_text (n : Name) : ∀ c ∈ n.text, c.isAlphanum = true :=
  n.tail_text fun _ => isAlphanum_of_isAlpha

/-! ### Reading the texts of the grammar -/

theorem Name.of_append (n : Name) (more : List Char) :
    of (n.text ++ more) = word (n.text ++ more) := by
  simp only [Run.text, List.cons_append, of, n.head_first, if_true]

theorem Name.of_text_append (n : Name) {more : List Char} (hmore : Stops Char.isAlphanum more) :
    of (n.text ++ more) = ⟨.ok (.identifier, String.ofList n.text), n.text, more⟩ := by
  have htext := Name.isAlphanum_text n
  rw [Name.of_append, word, takeWhile_append_of_stops htext hmore,
    dropWhile_append_of_stops htext hmore]

/-- A reserved word has the form of a name. -/
theorem exists_name_of_keyword (word : Keyword) : ∃ n : Name, n.text = word.spelling.toList := by
  have hfirst : ∃ first others, word.spelling.toList = first :: others ∧ first.isAlpha = true := by
    cases word <;> exact ⟨_, _, rfl, rfl⟩
  have hall : word.spelling.toList.all Char.isAlphanum = true := by
    cases word <;> rfl
  obtain ⟨first, others, hspelling, halpha⟩ := hfirst
  rw [hspelling] at hall ⊢
  rw [List.all_cons, Bool.and_eq_true, List.all_eq_true] at hall
  exact ⟨⟨first, others, halpha, hall.2⟩, rfl⟩

theorem of_of_isDigit
    {c : Char} (h : c.isDigit = true) (rest : List Char) :
    of (c :: rest) = number (c :: rest) := by
  simp [of, isAlpha_of_isDigit h, h]

theorem HexDigits.of_text_append (digits : HexDigits) (use : HexUse) (more : List Char) :
    of (digits.text ++ [use.suffix] ++ more) =
      ⟨.ok (use.kind, "0x" ++ String.ofList digits.text), digits.text ++ [use.suffix], more⟩ := by
  have hdigits := HexDigits.isHexDigit_text digits
  have hstops : Stops isHexDigit (use.suffix :: more) := stops_cons (by cases use <;> decide) more
  have hof : of (digits.text ++ [use.suffix] ++ more) =
      number (digits.text ++ use.suffix :: more) := by
    rw [List.append_assoc]
    exact of_of_isDigit digits.head_first _
  rw [hof, number, takeWhile_append_of_stops hdigits hstops,
    dropWhile_append_of_stops hdigits hstops]
  cases use <;> rfl

/-- Decimal digits in front of neither a hexadecimal digit nor a suffix. -/
theorem Digits.of_text_append
    (digits : Digits)
    {rest : List Char}
    (hrest : Stops (fun c => isHexDigit c || c == 'H' || c == 'X') rest) :
    of (digits.text ++ rest) = decimal digits.text rest := by
  have hdigits := Digits.isHexDigit_text digits
  have hstops : Stops isHexDigit rest := fun c hc => by
    have hclasses := hrest c hc
    simp only [Bool.or_eq_false_iff] at hclasses
    exact hclasses.1.1
  have hof : of (digits.text ++ rest) = number (digits.text ++ rest) :=
    of_of_isDigit digits.head_first _
  rw [hof, number, takeWhile_append_of_stops hdigits hstops,
    dropWhile_append_of_stops hdigits hstops]
  split
  · exact absurd (hrest 'H' rfl) (by decide)
  · exact absurd (hrest 'X' rfl) (by decide)
  · rfl

theorem Digits.decimal_of_stops
    (digits : Digits) {rest : List Char} (hrest : Stops (· == '.') rest) :
    decimal digits.text rest =
      ⟨.ok (.number .integer, String.ofList digits.text), digits.text, rest⟩ := by
  unfold decimal
  rw [if_pos (List.all_eq_true.2 (Digits.isDigit_text digits))]
  split
  · exact absurd (hrest '.' rfl) (by decide)
  · rfl

/-- Decimal digits and a point are the beginning of a real number. -/
theorem Digits.of_point (digits : Digits) (behind : List Char) :
    of (digits.text ++ '.' :: behind) = fraction (digits.text ++ ['.']) behind := by
  rw [Digits.of_text_append digits (stops_cons (by decide) behind), decimal,
    if_pos (List.all_eq_true.2 (Digits.isDigit_text digits))]

/-- The digits behind the point, with no exponent behind them. -/
theorem fraction_of_stops
    {digits rest : List Char}
    (taken : List Char)
    (hdigits : ∀ c ∈ digits, c.isDigit = true)
    (hrest : Stops (fun c => c.isDigit || c == 'E' || c == 'e') rest) :
    fraction taken (digits ++ rest) =
      ⟨.ok (.number .real, String.ofList (taken ++ digits)), taken ++ digits, rest⟩ := by
  have hstops : Stops Char.isDigit rest := fun c hc => by
    have hclasses := hrest c hc
    simp only [Bool.or_eq_false_iff] at hclasses
    exact hclasses.1.1
  rw [fraction, takeWhile_append_of_stops hdigits hstops, dropWhile_append_of_stops hdigits hstops]
  split
  · exact absurd (hrest 'E' rfl) (by decide)
  · exact absurd (hrest 'e' rfl) (by decide)
  · rfl

/-- The digits behind the point, with an exponent behind them. -/
theorem Exponent.fraction_append
    (e : Exponent)
    {digits : List Char}
    (taken more : List Char)
    (hdigits : ∀ c ∈ digits, c.isDigit = true) :
    fraction taken (digits ++ (e.text ++ more)) =
      exponent (taken ++ digits ++ [e.mark]) (e.sign ++ e.digits.text ++ more) := by
  have hmark : e.mark.isDigit = false := by
    obtain h | h := e.mark_eq <;> rw [h] <;> decide
  have hstops : Stops Char.isDigit (e.text ++ more) := stops_cons hmark _
  rw [fraction, takeWhile_append_of_stops hdigits hstops, dropWhile_append_of_stops hdigits hstops]
  simp only [Exponent.text, List.cons_append]
  obtain h | h := e.mark_eq <;> rw [h] <;> rfl

theorem Exponent.exponentSign_append (e : Exponent) (more : List Char) :
    exponentSign (e.sign ++ e.digits.text ++ more) = e.sign := by
  obtain h | h | h := e.sign_eq
  · have hfirst : ∀ sign, sign.isDigit = false → e.digits.first ≠ sign := by
      rintro sign hsign rfl
      rw [e.digits.head_first] at hsign
      cases hsign
    rw [h, List.nil_append, Run.text, List.cons_append]
    unfold exponentSign
    split
    · rename_i heq
      exact absurd (List.cons.inj heq).1 (hfirst '+' (by decide))
    · rename_i heq
      exact absurd (List.cons.inj heq).1 (hfirst '-' (by decide))
    · rfl
  · rw [h]; rfl
  · rw [h]; rfl

theorem Exponent.exponent_append
    (e : Exponent)
    (taken : List Char)
    {more : List Char}
    (hmore : Stops Char.isDigit more) :
    exponent taken (e.sign ++ e.digits.text ++ more) =
      ⟨.ok (.number .real, String.ofList (taken ++ e.sign ++ e.digits.text)),
        taken ++ e.sign ++ e.digits.text, more⟩ := by
  have hdigits := Digits.isDigit_text e.digits
  have hdrop : (e.sign ++ e.digits.text ++ more).drop e.sign.length = e.digits.text ++ more := by
    rw [List.append_assoc, List.drop_left]
  unfold exponent
  rw [e.exponentSign_append]
  dsimp only
  rw [hdrop, takeWhile_append_of_stops hdigits hmore, dropWhile_append_of_stops hdigits hmore]
  simp [Run.text]

theorem RealNumeral.of_text_append
    (r : RealNumeral)
    {more : List Char}
    (hmore : Stops (fun c => c.isDigit || c == 'E' || c == 'e') more) :
    of (r.text ++ more) = ⟨.ok (.number .real, String.ofList r.text), r.text, more⟩ := by
  obtain ⟨whole, digits, exponent, hdigits⟩ := r
  have hread := Digits.of_point whole
  cases exponent with
  | none =>
    have hend := fraction_of_stops (whole.text ++ ['.']) hdigits hmore
    simpa [RealNumeral.text, hread] using hend
  | some e =>
    have hstops : Stops Char.isDigit more := fun c hc => by
      have hclasses := hmore c hc
      simp only [Bool.or_eq_false_iff] at hclasses
      exact hclasses.1.1
    have hend := e.fraction_append (whole.text ++ ['.']) more hdigits
    rw [e.exponent_append _ hstops] at hend
    simpa [RealNumeral.text, Exponent.text, hread] using hend

theorem of_quoted_append
    (quote : Quote)
    {body : List Char}
    (hbody : quote.mark ∉ body)
    (more : List Char) :
    of (quote.mark :: body ++ [quote.mark] ++ more) =
      ⟨.ok (quote.kind, String.ofList (quote.mark :: body ++ [quote.mark])),
        quote.mark :: body ++ [quote.mark], more⟩ := by
  have hrun : ∀ c ∈ body, (c != quote.mark) = true := fun c hc => by
    simpa using fun h : c = quote.mark => hbody (h ▸ hc)
  have hstops : Stops (· != quote.mark) (quote.mark :: more) := stops_cons (by simp) more
  have hof : of (quote.mark :: body ++ [quote.mark] ++ more) =
      quoted quote.kind quote.mark (body ++ quote.mark :: more) := by
    rw [List.append_assoc]
    cases quote <;> rfl
  rw [hof, quoted, takeWhile_append_of_stops hrun hstops, dropWhile_append_of_stops hrun hstops]

/-- A sign that does not become a longer one by what stands behind it. -/
theorem of_sign_append (s : Sign) {more : List Char} (hmore : Stops (· == '=') more) :
    of (s.text.toList ++ more) = ⟨.ok (.sign s, s.text), s.text.toList, more⟩ := by
  have hlong : ∀ sign withEqual c, Reading.long sign withEqual c more = short sign c more := by
    intro sign withEqual c
    unfold Reading.long
    split
    · exact absurd (hmore '=' rfl) (by decide)
    · rfl
  cases s with
  | colon => exact hlong .colon .assign ':'
  | less => exact hlong .less .lessEqual '<'
  | greater => exact hlong .greater .greaterEqual '>'
  | _ => rfl

/-- In front of a blank or at the end, the text of a raw token is read as that token. -/
theorem Raw.of_text_append (raw : Raw) {more : List Char} (hmore : Delimited more) :
    of (raw.text ++ more) = ⟨.ok (Token.unreserve raw.content), raw.text, more⟩ := by
  have hword := raw.wordBehind?_content
  unfold Token.unreserve
  rw [hword]
  cases raw with
  | name n free => exact Name.of_text_append n (hmore.stops (by decide))
  | keyword word =>
    obtain ⟨n, hn⟩ := exists_name_of_keyword word
    have hread := Name.of_text_append n (hmore.stops (by decide))
    rw [hn, String.ofList_toList] at hread
    exact hread
  | decimal digits =>
    exact (Digits.of_text_append digits (hmore.stops (by decide))).trans
      (Digits.decimal_of_stops digits (hmore.stops (by decide)))
  | hexadecimal use digits => exact HexDigits.of_text_append digits use more
  | real r => exact r.of_text_append (hmore.stops (by decide))
  | quoted quote body free => exact of_quoted_append quote free more
  | sign s => exact of_sign_append s (hmore.stops (by decide))

/-! ### What is read is of the grammar -/

/-- Only reserved words are read as something else than they become. -/
theorem Raw.unreserve_content {raw : Raw} (h : ∀ word, raw ≠ .keyword word) :
    Token.unreserve raw.content = raw.content := by
  have hword := raw.wordBehind?_content
  unfold Token.unreserve
  rw [hword]
  cases raw with
  | keyword word => exact absurd rfl (h word)
  | _ => rfl

/--
Some text of a reading is that of a raw token; a quoted literal at the end of the source may lack
its closing quote.
-/
def Raw.IsTaken (raw : Raw) (text rest : List Char) : Prop :=
  text = raw.text ∨
    ∃ quote body free, raw = .quoted quote body free ∧ text = quote.mark :: body ∧ rest = []

/-- The reading is that of a raw token. -/
def Recognizes (r : Reading) : Prop :=
  ∀ found, r.outcome = .ok found → ∃ raw : Raw, found = Token.unreserve raw.content ∧
    raw.IsTaken r.text r.rest

theorem recognizes_word
    {c : Char} (hc : c.isAlpha = true) (rest : List Char) :
    Recognizes (word (c :: rest)) := by
  intro found hfound
  have htext := Run.text_ofTakeWhile rest hc fun _ => isAlphanum_of_isAlpha
  cases hspelling : Keyword.ofSpelling? (String.ofList ((c :: rest).takeWhile Char.isAlphanum)) with
  | none =>
    rw [← htext] at hspelling
    refine ⟨.name _ hspelling, ?_, Or.inl htext.symm⟩
    rw [Raw.unreserve_content (by simp), Raw.content, htext]
    exact (Except.ok.inj hfound).symm
  | some keyword =>
    have htaken := Keyword.spelling_of_ofSpelling? hspelling
    have hcontent : Token.unreserve (Raw.keyword keyword).content =
        (.identifier, keyword.spelling) := by
      unfold Token.unreserve
      rw [Raw.wordBehind?_content, Raw.word?]
    refine ⟨.keyword keyword, ?_, Or.inl ?_⟩
    · rw [hcontent, htaken]
      exact (Except.ok.inj hfound).symm
    · rw [Raw.text, htaken, String.toList_ofList]
      rfl

theorem exists_exponent_of_reading
    {taken input : List Char}
    {mark : Char}
    {found : Token.Kind × String}
    (hmark : mark = 'E' ∨ mark = 'e')
    (h : (exponent (taken ++ [mark]) input).outcome = .ok found) :
    ∃ e : Exponent,
      found = (.number .real, String.ofList (taken ++ e.text)) ∧
      (exponent (taken ++ [mark]) input).text = taken ++ e.text := by
  have hsign : exponentSign input = [] ∨
      exponentSign input = ['+'] ∨
      exponentSign input = ['-'] := by
    unfold exponentSign
    split
    · exact Or.inr (Or.inl rfl)
    · exact Or.inr (Or.inr rfl)
    · exact Or.inl rfl
  unfold exponent at h ⊢
  dsimp only at h ⊢
  split at h
  · cases h
  · rename_i hdigits
    cases hrun : (input.drop (exponentSign input).length).takeWhile Char.isDigit with
    | nil => simp [hrun] at hdigits
    | cons first others =>
      have hall : ∀ c ∈ first :: others, c.isDigit = true :=
        fun c hc => List.mem_takeWhile_imp (hrun ▸ hc)
      refine ⟨⟨mark, exponentSign input,
        ⟨first, others, hall first (by simp), fun c hc => hall c (by simp [hc])⟩, hmark, hsign⟩,
        ?_, ?_⟩
      · rw [hrun] at h
        rw [← Except.ok.inj h]
        simp [Exponent.text, Run.text]
      · simp [Exponent.text, Run.text]

theorem exists_real_of_reading
    (whole : Digits) {input : List Char} {found : Token.Kind × String}
    (h : (fraction (whole.text ++ ['.']) input).outcome = .ok found) :
    ∃ r : RealNumeral, found = (.number .real, String.ofList r.text) ∧
      (fraction (whole.text ++ ['.']) input).text = r.text := by
  have hdigits : ∀ c ∈ input.takeWhile Char.isDigit, c.isDigit = true :=
    fun _ hc => List.mem_takeWhile_imp hc
  unfold fraction at h ⊢
  dsimp only at h ⊢
  split at h
  · obtain ⟨e, hfound, htext⟩ := exists_exponent_of_reading (Or.inl rfl) h
    refine ⟨⟨whole, _, some e, hdigits⟩, ?_, ?_⟩
    · simpa [RealNumeral.text] using hfound
    · simpa [RealNumeral.text] using htext
  · obtain ⟨e, hfound, htext⟩ := exists_exponent_of_reading (Or.inr rfl) h
    refine ⟨⟨whole, _, some e, hdigits⟩, ?_, ?_⟩
    · simpa [RealNumeral.text] using hfound
    · simpa [RealNumeral.text] using htext
  · refine ⟨⟨whole, _, none, hdigits⟩, ?_, ?_⟩
    · rw [← Except.ok.inj h]
      simp [RealNumeral.text]
    · simp [RealNumeral.text]

theorem recognizes_decimal (digits : HexDigits) (rest : List Char) :
    Recognizes (decimal digits.text rest) := by
  intro found hfound
  unfold decimal at hfound ⊢
  split at hfound
  · rename_i hall
    rw [if_pos hall]
    have hdecimal : ∀ c ∈ digits.others, c.isDigit = true :=
      fun c hc => List.all_eq_true.1 hall c (List.mem_cons_of_mem _ hc)
    let whole : Digits := ⟨digits.first, digits.others, digits.head_first, hdecimal⟩
    split at hfound
    · obtain ⟨r, rfl, htext⟩ := exists_real_of_reading whole hfound
      exact ⟨.real r, by rw [Raw.unreserve_content (by simp)]; rfl, Or.inl htext⟩
    · refine ⟨.decimal whole, ?_, Or.inl rfl⟩
      rw [Raw.unreserve_content (by simp)]
      exact (Except.ok.inj hfound).symm
  · cases hfound

theorem recognizes_number
    {c : Char} (hc : c.isDigit = true) (rest : List Char) :
    Recognizes (number (c :: rest)) := by
  have htext := Run.text_ofTakeWhile rest hc fun _ => isHexDigit_of_isDigit
  have hhex : ∀ use : HexUse, ∀ more, Recognizes
      ⟨.ok (use.kind, "0x" ++ String.ofList (Run.ofTakeWhile c rest hc : HexDigits).text),
        (Run.ofTakeWhile c rest hc : HexDigits).text ++ [use.suffix], more⟩ := by
    intro use more found hfound
    refine ⟨.hexadecimal use _, ?_, Or.inl rfl⟩
    rw [Raw.unreserve_content (by simp)]
    exact (Except.ok.inj hfound).symm
  unfold number
  dsimp only
  rw [← htext]
  split
  · exact hhex .integer _
  · exact hhex .character _
  · exact recognizes_decimal _ _

/-- A literal is read in every case. -/
theorem outcome_quoted (kind : Token.Kind) (quote : Char) (input : List Char) :
    ∃ lexeme, (quoted kind quote input).outcome = .ok (kind, lexeme) := by
  unfold quoted
  dsimp only
  split
  · exact ⟨_, rfl⟩
  · exact ⟨_, rfl⟩

theorem recognizes_quoted (quote : Quote) (input : List Char) :
    Recognizes (quoted quote.kind quote.mark input) := by
  have hbody : quote.mark ∉ input.takeWhile (· != quote.mark) := fun hmem => by
    simpa using List.mem_takeWhile_imp hmem
  have hcontent : Token.unreserve (Raw.quoted quote _ hbody).content =
      (Raw.quoted quote _ hbody).content :=
    Raw.unreserve_content (by simp)
  unfold quoted
  dsimp only
  split
  · intro found hfound
    exact ⟨.quoted quote _ hbody, (Except.ok.inj hfound).symm.trans hcontent.symm,
      Or.inr ⟨quote, _, hbody, rfl, rfl, rfl⟩⟩
  · intro found hfound
    exact ⟨.quoted quote _ hbody, (Except.ok.inj hfound).symm.trans hcontent.symm, Or.inl rfl⟩

theorem recognizes_sign
    (s : Sign)
    {text : List Char}
    (htext : text = s.text.toList)
    (rest : List Char) :
    Recognizes ⟨.ok (.sign s, s.text), text, rest⟩ := by
  intro found hfound
  refine ⟨.sign s, ?_, Or.inl htext⟩
  rw [Raw.unreserve_content (by simp)]
  exact (Except.ok.inj hfound).symm

theorem recognizes_punctuation (c : Char) (rest : List Char) : Recognizes (punctuation c rest) := by
  have hshort : ∀ s, sign? c = some s → [c] = s.text.toList := by
    intro s hs
    unfold sign? at hs
    split at hs <;> cases hs <;> rfl
  unfold punctuation Reading.long short
  repeat' split
  all_goals first
    | exact recognizes_sign _ (by subst_vars; rfl) _
    | exact recognizes_sign _ (hshort _ ‹_›) _
    | (intro found hfound; cases hfound)

/-- Whatever is read is a raw token. -/
theorem recognizes_of (c : Char) (rest : List Char) : Recognizes (of (c :: rest)) := by
  simp only [of]
  split
  · exact recognizes_word ‹_› rest
  · split
    · exact recognizes_number ‹_› rest
    · split
      · rename_i hmark
        subst hmark
        exact recognizes_quoted .double rest
      · split
        · rename_i hmark
          subst hmark
          exact recognizes_quoted .single rest
        · exact recognizes_punctuation c rest

/-! ### Readings are the longest ones -/

theorem takeWhile_prefix_number (input : List Char) :
    input.takeWhile isHexDigit <+: (number input).text := by
  unfold number
  dsimp only
  split
  · exact List.prefix_append _ _
  · exact List.prefix_append _ _
  · exact decimal_text _ _

theorem takeWhile_prefix_fraction (taken input : List Char) :
    taken ++ input.takeWhile Char.isDigit <+: (fraction taken input).text := by
  unfold fraction
  dsimp only
  split
  · exact (List.prefix_append _ _).trans (exponent_text _ _)
  · exact (List.prefix_append _ _).trans (exponent_text _ _)
  · exact List.prefix_refl _

/-- A text of a class is part of the run that it stands in front of. -/
theorem prefix_takeWhile_append
    {p : Char → Bool}
    {text : List Char}
    (htext : ∀ c ∈ text, p c = true)
    (more : List Char) :
    text <+: (text ++ more).takeWhile p := by
  rw [List.takeWhile_append_of_pos htext]
  exact List.prefix_append _ _

theorem RealNumeral.text_prefix_reading (r : RealNumeral) (more : List Char) :
    r.text <+: (of (r.text ++ more)).text := by
  obtain ⟨whole, digits, exponent, hdigits⟩ := r
  have hread := Digits.of_point whole
  cases exponent with
  | none =>
    have hrun :=
      List.prefix_append_right_inj (whole.text ++ ['.']) |>.2 (prefix_takeWhile_append hdigits more)
    have hfront := hrun.trans (takeWhile_prefix_fraction (whole.text ++ ['.']) (digits ++ more))
    simpa [RealNumeral.text, hread] using hfront
  | some e =>
    have hdrop : (e.sign ++ e.digits.text ++ more).drop e.sign.length = e.digits.text ++ more := by
      rw [List.append_assoc, List.drop_left]
    have hrun := prefix_takeWhile_append (Digits.isDigit_text e.digits) more
    have hfront :=
      List.prefix_append_right_inj (whole.text ++ ['.'] ++ digits ++ [e.mark] ++ e.sign) |>.2 hrun
    have htext : (Reading.fraction (whole.text ++ ['.']) (digits ++ (e.text ++ more))).text =
        whole.text ++ ['.'] ++ digits ++ [e.mark] ++ e.sign ++
          (e.digits.text ++ more).takeWhile Char.isDigit := by
      rw [e.fraction_append _ more hdigits, Reading.exponent, e.exponentSign_append]
      dsimp only
      rw [hdrop]
    rw [← htext] at hfront
    simpa [RealNumeral.text, Exponent.text, hread] using hfront

/-- The text of a raw token is taken whole, whatever stands behind it. -/
theorem Raw.text_prefix_reading (raw : Raw) (more : List Char) :
    raw.text <+: (of (raw.text ++ more)).text := by
  have hname : ∀ n : Name, n.text <+: (of (n.text ++ more)).text := by
    intro n
    rw [Name.of_append]
    exact prefix_takeWhile_append (Name.isAlphanum_text n) more
  cases raw with
  | name n free => exact hname n
  | keyword word =>
    obtain ⟨n, hn⟩ := exists_name_of_keyword word
    rw [Raw.text, ← hn]
    exact hname n
  | decimal digits =>
    have hof : of (digits.text ++ more) = number (digits.text ++ more) :=
      of_of_isDigit digits.head_first _
    rw [Raw.text, hof]
    exact (prefix_takeWhile_append (Digits.isHexDigit_text digits) more).trans
      (takeWhile_prefix_number _)
  | hexadecimal use digits =>
    rw [Raw.text, HexDigits.of_text_append]
  | real r => exact r.text_prefix_reading more
  | quoted quote body free =>
    rw [Raw.text, of_quoted_append quote free]
  | sign s =>
    have hlong : ∀ sign withEqual c, [c] <+: (Reading.long sign withEqual c more).text := by
      intro sign withEqual c
      unfold Reading.long
      split
      · exact ⟨['='], rfl⟩
      · exact List.prefix_refl _
    cases s with
    | colon => exact hlong .colon .assign ':'
    | less => exact hlong .less .lessEqual '<'
    | greater => exact hlong .greater .greaterEqual '>'
    | _ => exact List.prefix_refl _

end Lexical
end Oberon
