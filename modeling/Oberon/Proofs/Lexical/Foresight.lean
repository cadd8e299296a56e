import Oberon.Proofs.Lexical.Comments
import Oberon.Proofs.Lexical.Printing

/-!
# How far a scanner looks ahead

One character behind what it takes is all that the scanner looks at.

**Readers.**  `Foresees` says so of a function that reads a text.  It holds of a reader that takes a
run of characters (`Foresees.run`) or tells its cases apart by the first character
(`Foresees.head`), if it holds of what is read behind it. `Reading.of` is put together in these
ways.

**Main statement.**  `Cursor.read_foresees`: what is read at a cursor, white space and comments in
front of it included.
-/

namespace Oberon
namespace Lexical

open Reading

/--
A reader leaves an end of its text, and reads the same whatever stands behind the first character
that it leaves.
-/
structure Foresees (reader : List Char → Reading) : Prop where
  rest : ∀ input, (reader input).rest <:+ input
  one : ∀ (read : List Char) (d : Char) (behind other : List Char),
    (reader (read ++ d :: behind)).rest = d :: behind →
    reader (read ++ d :: other) = { reader (read ++ d :: behind) with rest := d :: other }

/-- Texts with the same beginning have the same first character. -/
theorem exists_common_head (front : List Char) (d : Char) (behind other : List Char) :
    ∃ c rest rest', front ++ d :: behind = c :: rest ∧ front ++ d :: other = c :: rest' := by
  cases front with
  | nil => exact ⟨d, _, _, rfl, rfl⟩
  | cons c front => exact ⟨c, _, _, rfl, rfl⟩

theorem Stops.exchange
    {p : Char → Bool}
    {front behind : List Char}
    {d : Char}
    (h : Stops p (front ++ d :: behind))
    (other : List Char) :
    Stops p (front ++ d :: other) := by
  obtain ⟨c, rest, rest', hhead, hhead'⟩ := exists_common_head front d behind other
  rw [hhead] at h
  rw [hhead']
  exact stops_cons (h c rfl) rest'

namespace Foresees

theorem done (outcome : Except ScanError (Token.Kind × String)) (text : List Char) :
    Foresees fun input => ⟨outcome, text, input⟩ where
  rest input := List.suffix_refl input
  one read d behind other h := by
    obtain rfl : read = [] := by simpa using h
    rfl

/-- A run of characters, and what is read behind it. -/
theorem run
    (p : Char → Bool)
    (next : List Char → List Char → Reading)
    (h : ∀ taken, Foresees (next taken)) :
    Foresees fun input => next (input.takeWhile p) (input.dropWhile p) where
  rest input := ((h _).rest _).trans (List.dropWhile_suffix p)
  one read d behind other hrest := by
    dsimp only at hrest ⊢
    obtain ⟨more, hmore⟩ := hrest ▸ (h _).rest ((read ++ d :: behind).dropWhile p)
    have hsplit := List.takeWhile_append_dropWhile (p := p) (l := read ++ d :: behind)
    have hstops := stops_dropWhile p (read ++ d :: behind)
    have htaken : ∀ c ∈ (read ++ d :: behind).takeWhile p, p c = true :=
      fun c hc => List.mem_takeWhile_imp hc
    rw [← hmore] at hsplit hstops hrest ⊢
    generalize (read ++ d :: behind).takeWhile p = taken at hsplit htaken hrest ⊢
    obtain rfl : read = taken ++ more := by
      rw [← List.append_assoc] at hsplit
      exact (List.append_cancel_right hsplit).symm
    have hother : Stops p (more ++ d :: other) := hstops.exchange other
    rw [List.append_assoc, takeWhile_append_of_stops htaken hother,
      dropWhile_append_of_stops htaken hother]
    exact (h taken).one more d behind other hrest

/-- Cases told apart by the first character, which is left to what is read next or taken. -/
theorem head
    {reader : List Char → Reading}
    (hnil : (reader []).rest = [])
    (hcons : ∀ c,
      ∃ next,
        Foresees next ∧
        ((∀ rest, reader (c :: rest) = next (c :: rest)) ∨
          ∀ rest, reader (c :: rest) = next rest)) :
    Foresees reader where
  rest input := by
    cases input with
    | nil => rw [hnil]
    | cons c rest =>
      obtain ⟨next, hnext, heq | heq⟩ := hcons c
      · rw [heq]
        exact hnext.rest _
      · rw [heq]
        exact (hnext.rest rest).trans (List.suffix_cons c rest)
  one read d behind other hrest := by
    cases read with
    | nil =>
      obtain ⟨next, hnext, heq | heq⟩ := hcons d
      · have hone := hnext.one [] d behind other
        simp only [List.nil_append, heq] at hone hrest ⊢
        exact hone hrest
      · simp only [List.nil_append, heq] at hrest
        have hlength := (hrest ▸ hnext.rest behind).length_le
        simp at hlength
    | cons c read =>
      obtain ⟨next, hnext, heq | heq⟩ := hcons c
      · have hone := hnext.one (c :: read) d behind other
        simp only [List.cons_append, heq] at hone hrest ⊢
        exact hone hrest
      · simp only [List.cons_append, heq] at hrest ⊢
        exact hnext.one read d behind other hrest

end Foresees

/-! ### Tokens -/

theorem foresees_word : Foresees word :=
  .run Char.isAlphanum (fun text rest => ⟨.ok (.identifier, String.ofList text), text, rest⟩)
    fun _ => .done _ _

/-- The digits of an exponent, behind the text so far. -/
def exponentDigits (taken input : List Char) : Reading :=
  let digits := input.takeWhile Char.isDigit
  ⟨if digits.isEmpty then .error .exponentWithoutDigits
    else .ok (.number .real, String.ofList (taken ++ digits)), taken ++ digits,
    input.dropWhile Char.isDigit⟩

theorem foresees_exponentDigits (taken : List Char) : Foresees (exponentDigits taken) :=
  .run Char.isDigit (fun digits rest => ⟨if digits.isEmpty then .error .exponentWithoutDigits
    else .ok (.number .real, String.ofList (taken ++ digits)), taken ++ digits, rest⟩)
      fun _ => .done _ _

theorem foresees_exponent (taken : List Char) : Foresees (exponent taken) := by
  refine .head rfl fun c => ?_
  by_cases hplus : c = '+'
  · exact ⟨_, foresees_exponentDigits (taken ++ ['+']), Or.inr fun rest => by rw [hplus]; rfl⟩
  · by_cases hminus : c = '-'
    · exact ⟨_, foresees_exponentDigits (taken ++ ['-']), Or.inr fun rest => by rw [hminus]; rfl⟩
    · refine ⟨_, foresees_exponentDigits taken, Or.inl fun rest => ?_⟩
      have hsign : exponentSign (c :: rest) = [] := by simp [exponentSign, hplus, hminus]
      simp [exponent, exponentDigits, hsign]

/-- What is read behind the digits of a fraction. -/
def behindFraction (text : List Char) : List Char → Reading
  | 'E' :: rest => exponent (text ++ ['E']) rest
  | 'e' :: rest => exponent (text ++ ['e']) rest
  | rest => ⟨.ok (.number .real, String.ofList text), text, rest⟩

theorem foresees_behindFraction (text : List Char) : Foresees (behindFraction text) := by
  refine .head rfl fun c => ?_
  by_cases hupper : c = 'E'
  · exact ⟨_, foresees_exponent (text ++ ['E']), Or.inr fun rest => by rw [hupper]; rfl⟩
  · by_cases hlower : c = 'e'
    · exact ⟨_, foresees_exponent (text ++ ['e']), Or.inr fun rest => by rw [hlower]; rfl⟩
    · exact ⟨_, .done (.ok (.number .real, String.ofList text)) text,
        Or.inl fun rest => by simp [behindFraction, hupper, hlower]⟩

theorem foresees_fraction (taken : List Char) : Foresees (fraction taken) :=
  .run Char.isDigit (fun digits => behindFraction (taken ++ digits)) fun _ =>
    foresees_behindFraction _

theorem foresees_decimal (digits : List Char) : Foresees (decimal digits) := by
  refine .head ?_ fun c => ?_
  · unfold decimal
    split <;> rfl
  · by_cases hdigits : digits.all Char.isDigit = true
    · by_cases hpoint : c = '.'
      · exact ⟨_, foresees_fraction (digits ++ ['.']),
          Or.inr fun rest => by rw [hpoint, decimal, if_pos hdigits]⟩
      · exact ⟨_, .done (.ok (.number .integer, String.ofList digits)) digits,
          Or.inl fun rest => by simp [decimal, hdigits, hpoint]⟩
    · exact ⟨_, .done _ _, Or.inl fun rest => if_neg hdigits⟩

/-- What is read behind the hexadecimal digits of a number. -/
def behindNumber (digits : List Char) : List Char → Reading
  | 'H' :: rest => ⟨.ok (.number .integer, "0x" ++ String.ofList digits), digits ++ ['H'], rest⟩
  | 'X' :: rest => ⟨.ok (.charLiteral, "0x" ++ String.ofList digits), digits ++ ['X'], rest⟩
  | rest => decimal digits rest

theorem foresees_behindNumber (digits : List Char) : Foresees (behindNumber digits) := by
  refine .head ?_ fun c => ?_
  · exact List.suffix_nil.1 ((foresees_decimal digits).rest [])
  · by_cases hinteger : c = 'H'
    · exact ⟨_, .done _ _, Or.inr fun rest => by rw [hinteger]; rfl⟩
    · by_cases hcharacter : c = 'X'
      · exact ⟨_, .done _ _, Or.inr fun rest => by rw [hcharacter]; rfl⟩
      · exact ⟨_, foresees_decimal digits,
          Or.inl fun rest => by simp [behindNumber, hinteger, hcharacter]⟩

theorem foresees_number : Foresees number :=
  .run isHexDigit behindNumber foresees_behindNumber

/-- What is read behind the body of a literal. -/
def behindQuoted (kind : Token.Kind) (quote : Char) (body : List Char) : List Char → Reading
  | [] => ⟨.ok (kind, String.ofList (quote :: body ++ [quote])), quote :: body, []⟩
  | _ :: rest =>
    ⟨.ok (kind, String.ofList (quote :: body ++ [quote])), quote :: body ++ [quote], rest⟩

theorem foresees_behindQuoted
    (kind : Token.Kind) (quote : Char) (body : List Char) :
    Foresees (behindQuoted kind quote body) :=
  .head rfl fun _ => ⟨_, .done _ _, Or.inr fun _ => rfl⟩

theorem foresees_quoted (kind : Token.Kind) (quote : Char) : Foresees (quoted kind quote) :=
  .run (· != quote) (behindQuoted kind quote) (foresees_behindQuoted kind quote)

theorem foresees_long (sign withEqual : Sign) (c : Char) : Foresees (long sign withEqual c) := by
  refine .head rfl fun d => ?_
  by_cases hequal : d = '='
  · exact ⟨_, .done _ _, Or.inr fun rest => by rw [hequal]; rfl⟩
  · exact ⟨_, .done (.ok (.sign sign, sign.text)) [c],
      Or.inl fun rest => by simp [long, hequal, short]⟩

theorem foresees_punctuation (c : Char) : Foresees (punctuation c) := by
  unfold punctuation
  split
  · exact foresees_long ..
  · split
    · exact foresees_long ..
    · split
      · exact foresees_long ..
      · split
        · exact .done _ _
        · exact .done _ _

theorem foresees_of : Foresees of := by
  refine .head rfl fun c => ?_
  by_cases halpha : c.isAlpha = true
  · exact ⟨_, foresees_word, Or.inl fun rest => by simp only [of, halpha, if_true]⟩
  · by_cases hdigit : c.isDigit = true
    · exact ⟨_, foresees_number, Or.inl fun rest => of_of_isDigit hdigit rest⟩
    · by_cases hdouble : c = '"'
      · exact ⟨_, foresees_quoted .stringLiteral c, Or.inr fun rest => by simp [of, hdouble]⟩
      · by_cases hsingle : c = '\''
        · exact ⟨_, foresees_quoted .charLiteral c, Or.inr fun rest => by simp [of, hsingle]⟩
        · exact ⟨_, foresees_punctuation c,
            Or.inr fun rest => by simp [of, halpha, hdigit, hdouble, hsingle]⟩

/-! ### White space and comments -/

/-- Inside of a comment a character is skipped that begins no delimiter. -/
theorem split_succ_cons
    {c : Char} {rest : List Char} (depth : Nat) (hopening : c = '(' → Stops (· == '*') rest)
    (hclosing : c = '*' → Stops (· == ')') rest) :
    Trivia.split (depth + 1) (c :: rest) =
      (c :: (Trivia.split (depth + 1) rest).1, (Trivia.split (depth + 1) rest).2) := by
  have hdelimiter : ∀ {first second : Char}, (c = first → Stops (· == second) rest) →
      ∀ behind, c = first → rest = second :: behind → False := by
    rintro first second hstops behind hfirst rfl
    have hsecond := hstops hfirst second rfl
    simp at hsecond
  rw [Trivia.split]
  · exact hdelimiter hopening
  · exact hdelimiter hclosing

/--
White space and comments end in front of two characters in the same way whatever stands behind
these.
-/
theorem split_foresees
    {depth : Nat}
    {text rest : List Char}
    {c d : Char}
    (h : (Trivia.split depth text).2 = c :: d :: rest)
    (other : List Char) :
    Trivia.split depth ((Trivia.split depth text).1 ++ c :: d :: other) =
      ((Trivia.split depth text).1, c :: d :: other) := by
  fun_induction Trivia.split depth text with
  | case1 depth => cases h
  | case2 text ih => simp [Trivia.split, ih h]
  | case3 e text _ hblank ih =>
    have hparen : e ≠ '(' := by
      rintro rfl
      exact absurd hblank (by decide)
    simp [Trivia.split, hblank, hparen, ih h]
  | case4 e text hopening hblank =>
    obtain ⟨rfl, rfl⟩ := List.cons.inj h
    refine split_zero_cons (by simpa using hblank) fun hc => ?_
    have hstops : Stops (· == '*') ([] ++ d :: rest) := stops_of_ne fun behind => hopening behind hc
    exact hstops.exchange other
  | case5 depth text ih => simp [Trivia.split, ih h]
  | case6 depth text ih => simp [Trivia.split, ih h]
  | case7 depth e text hopening hclosing ih =>
    have htext := Trivia.split_append (depth + 1) text
    rw [h] at htext
    have hstops : ∀ {p : Char → Bool}, Stops p text →
        Stops p ((Trivia.split (depth + 1) text).1 ++ c :: d :: other) := by
      intro p hp
      rw [← htext] at hp
      exact hp.exchange _
    rw [List.cons_append, split_succ_cons depth
      (fun he => hstops (stops_of_ne fun behind => hopening behind he))
      (fun he => hstops (stops_of_ne fun behind => hclosing behind he)), ih h]

end Lexical

/-! ### What a cursor reads -/

open Lexical

theorem Cursor.rest_read (c : Cursor) : c.read.2.rest <:+ c.rest :=
  (foresees_of.rest c.body).trans ⟨_, Trivia.split_append 0 c.rest⟩

/--
A reading that stops in front of a place depends on the text up to the first character behind that
place only.
-/
theorem Cursor.read_foresees
    {c : Cursor}
    {front behind : List Char}
    {d : Char}
    (hrest : c.rest = front ++ d :: behind)
    (hlength : behind.length < c.read.2.rest.length)
    (other : List Char) :
    ∃ left,
      c.read.2.rest = left ++ d :: behind ∧
      Cursor.read ⟨front ++ d :: other, c.position⟩ =
        (c.read.1, ⟨left ++ d :: other, c.read.2.position⟩) := by
  have hsplit : (Trivia.split 0 c.rest).1 ++ c.body = c.rest := Trivia.split_append 0 c.rest
  have hbody := Reading.of_append c.body
  change behind.length < (Reading.of c.body).rest.length at hlength
  obtain ⟨left, hleft⟩ : ∃ left, left ++ d :: behind = (Reading.of c.body).rest :=
    List.suffix_of_suffix_length_le ⟨front, hrest.symm⟩ c.rest_read hlength
  obtain ⟨first, text, htext⟩ : ∃ first text, (Reading.of c.body).text = first :: text := by
    refine List.exists_cons_of_ne_nil ?_
    cases hempty : c.body with
    | nil =>
      rw [hempty] at hlength
      exact absurd hlength (Nat.not_lt_zero _)
    | cons first rest => exact Reading.of_text_ne_nil first rest
  have hfront : front = (Trivia.split 0 c.rest).1 ++ ((Reading.of c.body).text ++ left) := by
    have hwhole : front ++ d :: behind =
        (Trivia.split 0 c.rest).1 ++ ((Reading.of c.body).text ++ left) ++ d :: behind := by
      rw [← hrest, List.append_assoc, List.append_assoc, hleft, hbody, hsplit]
    exact List.append_cancel_right hwhole
  -- The first character of the text is followed by another one, in the text or behind it.
  have hskipped : Trivia.split 0 (front ++ d :: other) =
      ((Trivia.split 0 c.rest).1, (Reading.of c.body).text ++ (left ++ d :: other)) := by
    obtain ⟨e, rest, rest', hhead, hhead'⟩ := exists_common_head (text ++ left) d behind other
    have hstart : c.body = first :: e :: rest := by
      rw [← hbody, ← hleft, htext, List.cons_append, ← List.append_assoc, hhead]
    have hforesees := split_foresees hstart rest'
    rw [← hhead'] at hforesees
    rw [hfront, htext]
    simpa using hforesees
  have hread : Reading.of ((Reading.of c.body).text ++ (left ++ d :: other)) =
      { Reading.of c.body with rest := left ++ d :: other } := by
    obtain ⟨e, rest, rest', hhead, hhead'⟩ := exists_common_head left d behind other
    have hforesees := foresees_of.one (Reading.of c.body).text e rest rest'
    rw [← hhead, ← hhead', hleft, hbody] at hforesees
    exact hforesees rfl
  refine ⟨left, hleft.symm, ?_⟩
  unfold Cursor.read Cursor.body Cursor.start
  rw [hskipped]
  dsimp only
  rw [hread]
  rfl

end Oberon
