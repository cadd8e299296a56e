import Oberon.Proofs.Lexical.Pieces

/-!
# Malformed tokens

What the scanner stops at, said by the texts of the lexical grammar.

unknown character := a character that no token begins with bad number        := digit {hexadecimal
digit}                           with a letter, and no H or X behind it bad exponent      := digit
{digit} . {digit} (E | e) [+ | -]             with no digit behind it

**Texts.**  `Malformed behind e text` says that the error `e` is reported for `text` in front of
`behind`; such a text has no line feed (`Malformed.not_mem`).

**Main statement.**  `malformed_of_outcome`: whatever is not read as a token is malformed.
-/

namespace Oberon
namespace Lexical

open Reading

/-- A text in front of another one that is not the text of a token, with the error for it. -/
inductive Malformed (behind : List Char) : ScanError → List Char → Prop
  /-- No token begins with the character. -/
  | character {c : Char} (h : ∀ raw : Raw, raw.text.head? ≠ some c) :
      Malformed behind (.unknownCharacter c) [c]
  /-- Digits with a letter among them must have a mark behind them. -/
  | number (digits : HexDigits) (hletter : ∃ c ∈ digits.text, c.isDigit = false)
      (hbehind : Stops (fun c => isHexDigit c || c == 'H' || c == 'X') behind) :
      Malformed behind (.malformedNumber (String.ofList digits.text)) digits.text
  /-- An exponent must have a digit. -/
  | exponent
      (whole : Digits)
      {fraction sign : List Char}
      {mark : Char}
      (hfraction : ∀ c ∈ fraction, c.isDigit = true)
      (hmark : mark = 'E' ∨ mark = 'e')
      (hsign : sign = ['+'] ∨
        sign = ['-'] ∨
        sign = [] ∧ Stops (fun c => c == '+' || c == '-') behind)
      (hbehind : Stops Char.isDigit behind) :
      Malformed behind .exponentWithoutDigits (whole.text ++ '.' :: fraction ++ mark :: sign)

/-- A malformed text stands on one line. -/
theorem Malformed.not_mem
    {behind text : List Char}
    {e : ScanError}
    (h : Malformed behind e text)
    (hstarts : StartsToken (text ++ behind)) :
    '\n' ∉ text := by
  cases h with
  | @character c _ =>
    have hblank : Text.isBlank c = false := hstarts.1 c rfl
    rw [List.mem_singleton]
    rintro rfl
    cases hblank
  | number digits _ _ =>
    intro hmem
    have hdigit := digits.isHexDigit_text _ hmem
    cases hdigit
  | @exponent whole fraction sign mark hfraction hmark hsign _ =>
    have hwhole : '\n' ∉ whole.text := fun hmem => by
      have hdigit := Digits.isDigit_text whole _ hmem
      cases hdigit
    have hfraction : '\n' ∉ fraction := fun hmem => by
      have hdigit := hfraction _ hmem
      cases hdigit
    have hmark : '\n' ≠ mark := by
      obtain rfl | rfl := hmark <;> decide
    have hsign : '\n' ∉ sign := by
      obtain rfl | rfl | ⟨rfl, -⟩ := hsign <;> decide
    simp [hwhole, hfraction, hmark, hsign]

/-! ### Readings that fail -/

/-- The sign of an exponent, which is missing only where none stands. -/
theorem exponentSign_cases (input : List Char) :
    ∃ rest,
      input = exponentSign input ++ rest ∧
      (exponentSign input = ['+'] ∨
        exponentSign input = ['-'] ∨
        exponentSign input = [] ∧ Stops (fun c => c == '+' || c == '-') rest) := by
  unfold exponentSign
  split
  · exact ⟨_, rfl, .inl rfl⟩
  · exact ⟨_, rfl, .inr (.inl rfl)⟩
  · rename_i hplus hminus
    exact ⟨input, rfl, .inr (.inr ⟨rfl, (stops_beq hplus).or (stops_beq hminus)⟩)⟩

theorem malformed_of_exponent
    (whole : Digits)
    {fraction input : List Char}
    {mark : Char}
    {e : ScanError}
    (hfraction : ∀ c ∈ fraction, c.isDigit = true)
    (hmark : mark = 'E' ∨ mark = 'e')
    (h : (Reading.exponent (whole.text ++ ['.'] ++ fraction ++ [mark]) input).outcome = .error e) :
    Malformed (Reading.exponent (whole.text ++ ['.'] ++ fraction ++ [mark]) input).rest e
      (Reading.exponent (whole.text ++ ['.'] ++ fraction ++ [mark]) input).text := by
  obtain ⟨rest, hinput, hsign⟩ := exponentSign_cases input
  have hdrop : input.drop (exponentSign input).length = rest :=
    (congrArg (List.drop _) hinput).trans List.drop_left
  have hstops := stops_dropWhile Char.isDigit rest
  have hsplit := List.takeWhile_append_dropWhile (p := Char.isDigit) (l := rest)
  unfold Reading.exponent at h ⊢
  dsimp only at h ⊢
  rw [hdrop] at h ⊢
  split at h
  · rename_i hnone
    cases h
    rw [List.isEmpty_iff] at hnone
    rw [hnone, List.nil_append] at hsplit
    rw [hsplit] at hstops ⊢
    rw [hnone]
    simpa using Malformed.exponent whole hfraction hmark hsign hstops
  · cases h

theorem malformed_of_fraction
    (whole : Digits)
    {input : List Char}
    {e : ScanError}
    (h : (fraction (whole.text ++ ['.']) input).outcome = .error e) :
    Malformed (fraction (whole.text ++ ['.']) input).rest e
      (fraction (whole.text ++ ['.']) input).text := by
  have hdigits : ∀ c ∈ input.takeWhile Char.isDigit, c.isDigit = true :=
    fun _ hc => List.mem_takeWhile_imp hc
  unfold fraction at h ⊢
  split at h
  · exact malformed_of_exponent whole hdigits (.inl rfl) h
  · exact malformed_of_exponent whole hdigits (.inr rfl) h
  · cases h

theorem malformed_of_decimal
    (digits : HexDigits)
    {rest : List Char}
    {e : ScanError}
    (hrest : Stops (fun c => isHexDigit c || c == 'H' || c == 'X') rest)
    (h : (decimal digits.text rest).outcome = .error e) :
    Malformed (decimal digits.text rest).rest e (decimal digits.text rest).text := by
  by_cases hdigits : digits.text.all Char.isDigit = true
  · have hwhole := List.all_eq_true.1 hdigits
    let whole : Digits :=
      ⟨digits.first, digits.others, digits.head_first,
        fun c hc => hwhole c (List.mem_cons_of_mem _ hc)⟩
    unfold decimal at h ⊢
    rw [if_pos hdigits] at h ⊢
    split at h
    · exact malformed_of_fraction whole h
    · cases h
  · obtain ⟨c, hc, hletter⟩ : ∃ c ∈ digits.text, c.isDigit = false := by simpa using hdigits
    unfold decimal at h ⊢
    rw [if_neg hdigits] at h ⊢
    cases h
    exact .number digits ⟨c, hc, hletter⟩ hrest

/-- No token begins with a character that none of the classes has. -/
theorem head?_ne_of_none
    {c : Char}
    (halpha : ¬ c.isAlpha = true)
    (hdigit : ¬ c.isDigit = true)
    (hquotes : c ≠ '"' ∧ c ≠ '\'')
    (hlong : c ≠ ':' ∧ c ≠ '<' ∧ c ≠ '>')
    (hsign : sign? c = none)
    (raw : Raw) :
    raw.text.head? ≠ some c := by
  intro hhead
  cases raw with
  | name n _ =>
    obtain rfl := Option.some.inj hhead
    exact halpha n.head_first
  | keyword word =>
    obtain ⟨n, hn⟩ := exists_name_of_keyword word
    rw [Raw.text, ← hn] at hhead
    obtain rfl := Option.some.inj hhead
    exact halpha n.head_first
  | decimal digits =>
    obtain rfl := Option.some.inj hhead
    exact hdigit digits.head_first
  | hexadecimal use digits =>
    obtain rfl := Option.some.inj hhead
    exact hdigit digits.head_first
  | real r =>
    obtain rfl := Option.some.inj hhead
    exact hdigit r.whole.head_first
  | quoted quote body _ =>
    obtain rfl := Option.some.inj hhead
    cases quote with
    | double => exact hquotes.1 rfl
    | single => exact hquotes.2 rfl
  | sign s =>
    obtain ⟨d, hd, hclass⟩ : ∃ d, s.text.toList.head? = some d ∧
        ((sign? d).isSome = true ∨ d = ':' ∨ d = '<' ∨ d = '>') := by
      cases s <;> exact ⟨_, rfl, by decide⟩
    obtain rfl : d = c := Option.some.inj (hd.symm.trans hhead)
    simp [hsign, hlong] at hclass

theorem malformed_of_punctuation
    {c : Char}
    {others : List Char}
    {e : ScanError}
    (halpha : ¬ c.isAlpha = true)
    (hdigit : ¬ c.isDigit = true)
    (hquotes : c ≠ '"' ∧ c ≠ '\'')
    (h : (punctuation c others).outcome = .error e) :
    Malformed (punctuation c others).rest e (punctuation c others).text := by
  have hlong : ∀ sign withEqual, (long sign withEqual c others).outcome ≠ .error e := by
    intro sign withEqual
    unfold long short
    split <;> simp
  unfold punctuation at h ⊢
  split at h
  · exact absurd h (hlong _ _)
  · rename_i hcolon
    split at h
    · exact absurd h (hlong _ _)
    · rename_i hless
      split at h
      · exact absurd h (hlong _ _)
      · rename_i hgreater
        rw [if_neg hcolon, if_neg hless, if_neg hgreater]
        split at h
        · cases h
        · rename_i hsign
          cases h
          exact .character (head?_ne_of_none halpha hdigit hquotes ⟨hcolon, hless, hgreater⟩ hsign)

/-- Where no token is read, a malformed text stands. -/
theorem malformed_of_outcome
    {input : List Char} {e : ScanError} (h : (of input).outcome = .error e) :
    Malformed (of input).rest e (of input).text := by
  cases input with
  | nil => cases h
  | cons c others =>
    by_cases hdigit : c.isDigit = true
    · have htext : (Run.ofTakeWhile c others hdigit : HexDigits).text =
          (c :: others).takeWhile isHexDigit :=
        Run.text_ofTakeWhile others hdigit fun _ => isHexDigit_of_isDigit
      have hstops := stops_dropWhile isHexDigit (c :: others)
      rw [of_of_isDigit hdigit] at h ⊢
      unfold number at h ⊢
      split at h
      · cases h
      · cases h
      · rename_i hH hX
        dsimp only at h ⊢
        rw [← htext] at h ⊢
        exact malformed_of_decimal _ ((hstops.or (stops_beq hH)).or (stops_beq hX)) h
    · obtain ⟨_, hstring⟩ := outcome_quoted .stringLiteral c others
      obtain ⟨_, hchar⟩ := outcome_quoted .charLiteral c others
      rw [of] at h ⊢
      rw [if_neg hdigit] at h ⊢
      split at h
      · cases h
      · rename_i halpha
        split at h
        · cases hstring.symm.trans h
        · rename_i hdouble
          split at h
          · cases hchar.symm.trans h
          · rename_i hsingle
            rw [if_neg halpha, if_neg hdouble, if_neg hsingle]
            exact malformed_of_punctuation halpha hdigit ⟨hdouble, hsingle⟩ h

end Lexical
end Oberon
