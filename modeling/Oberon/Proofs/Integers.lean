import Mathlib.Data.Nat.Digits.Defs
import Oberon.Proofs.Lexical.Printing
import Oberon.Proofs.Translation.Declaration

/-!
# Integer literals

An integer literal is read three times: as a number of the source, as the length of an array, and by
a C compiler in the text that is written for it.

    decimal     := digit {digit}                           base 10
    hexadecimal := digit {hexadecimal digit} H             base 16

**Values.**  `IntegerLiteral.value` is the number of a literal, and `Target.integer?` what C reads
in a text: hexadecimal digits behind `0x`, octal ones behind any other zero, otherwise decimal ones.

**Zeros in front.**  The text of a decimal literal is kept, so that C reads a literal with a zero in
front as an octal one.  Below eight this makes no difference; from there on C reads a smaller
number, or none if there is an `8` or a `9` (`integer?_lexeme_eq_iff`).  Lengths of arrays are read
in the base of the source.

**Main statement.**  `integer_literals_valued`.
-/

namespace Oberon

/-! ### Digits -/

namespace Lexical

open Reading

/-- The number that a digit stands for, in either case. -/
def figure (c : Char) : Nat := "0123456789abcdef".toList.idxOf c.toLower

/-- The number that digits stand for in a base, the first digit counting most. -/
def numeral (base : Nat) (digits : List Char) : Nat := Nat.ofDigits base (digits.reverse.map figure)

theorem toNat_lt_of_isHexDigit {c : Char} (h : isHexDigit c = true) : c.toNat < 128 := by
  have hclasses : isHexDigit c = (decide ('0'.val ≤ c.val) && decide (c.val ≤ '9'.val) ||
      decide ('A' ≤ c) && decide (c ≤ 'F') || decide ('a' ≤ c) && decide (c ≤ 'f')) := rfl
  simp only [hclasses, Bool.or_eq_true, Bool.and_eq_true, decide_eq_true_eq, Char.le_def,
    UInt32.le_iff_toNat_le] at h
  change c.val.toNat < 128
  obtain (⟨-, h⟩ | ⟨-, h⟩) | ⟨-, h⟩ := h
  · exact lt_of_le_of_lt h (by decide)
  · exact lt_of_le_of_lt h (by decide)
  · exact lt_of_le_of_lt h (by decide)

/-- What is true of the hexadecimal digits among the first characters is true of them all. -/
theorem isHexDigit_induction
    {p : Char → Prop}
    (h : ∀ n < 128, isHexDigit (Char.ofNat n) = true → p (Char.ofNat n))
    {c : Char}
    (hc : isHexDigit c = true) :
    p c := by
  have hcode := h c.toNat (toNat_lt_of_isHexDigit hc)
  rw [Char.ofNat_toNat] at hcode
  exact hcode hc

theorem figure_eq_digit {c : Char} (hc : isHexDigit c = true) : figure c = Magnitude.digit c :=
  isHexDigit_induction (p := fun c => figure c = Magnitude.digit c) (by decide) hc

theorem figure_lt_sixteen {c : Char} (hc : isHexDigit c = true) : figure c < 16 :=
  isHexDigit_induction (p := fun c => figure c < 16) (by decide) hc

theorem figure_lt_ten {c : Char} (hc : c.isDigit = true) : figure c < 10 :=
  isHexDigit_induction (p := fun c => c.isDigit = true → figure c < 10) (by decide)
    (isHexDigit_of_isDigit hc) hc

theorem eight_le_figure_iff {c : Char} (hc : c.isDigit = true) : 8 ≤ figure c ↔ c = '8' ∨ c = '9' :=
  isHexDigit_induction (p := fun c => c.isDigit = true → (8 ≤ figure c ↔ c = '8' ∨ c = '9'))
    (by decide)
    (isHexDigit_of_isDigit hc) hc

/-- The compiler's own reading of digits. -/
theorem ofDigits_eq_numeral
    (base : Nat) {digits : List Char} (h : ∀ c ∈ digits, isHexDigit c = true) :
    Magnitude.ofDigits base digits = numeral base digits := by
  unfold Magnitude.ofDigits numeral
  induction digits using List.reverseRecOn with
  | nil => rfl
  | append_singleton digits c ih =>
    rw [List.foldl_append, ih fun d hd => h d (by simp [hd]), List.reverse_append]
    simp only [List.foldl_cons, List.foldl_nil, List.reverse_singleton, List.singleton_append,
      List.map_cons, Nat.ofDigits_cons]
    rw [figure_eq_digit (h c (by simp)), Nat.add_comm, Nat.mul_comm]

/-- Below eight the octal digits of a number are its decimal ones. -/
theorem ofDigits_eight_of_lt {figures : List Nat} (h : Nat.ofDigits 10 figures < 8) :
    (∀ x ∈ figures, x < 8) ∧ Nat.ofDigits 8 figures = Nat.ofDigits 10 figures := by
  have hsum := Nat.sum_le_ofDigits figures (p := 10) (by decide)
  refine ⟨fun x hx => ?_, ?_⟩
  · have hle := List.le_sum_of_mem hx
    omega
  · cases figures with
    | nil => rfl
    | cons x others =>
      have hle := Nat.ofDigits_monotone others (p := 8) (q := 10) (by decide)
      rw [Nat.ofDigits_cons] at h ⊢
      rw [Nat.ofDigits_cons]
      omega

/-- From eight on the same digits are less as octal ones. -/
theorem ofDigits_eight_lt
    {figures : List Nat}
    (hfigures : ∀ x ∈ figures, x < 8)
    (h : 8 ≤ Nat.ofDigits 10 figures) :
    Nat.ofDigits 8 figures < Nat.ofDigits 10 figures := by
  cases figures with
  | nil => simp at h
  | cons x others =>
    have hx := hfigures x (by simp)
    have hle := Nat.ofDigits_monotone others (p := 8) (q := 10) (by decide)
    rw [Nat.ofDigits_cons] at h ⊢
    rw [Nat.ofDigits_cons]
    omega

end Lexical

/-! ### The integers of C -/

namespace Target

open Lexical

/-- The number that some digits of a base stand for. -/
def number? (base : Nat) (digits : List Char) : Option Nat :=
  if digits ≠ [] ∧ digits.all (figure · < base) then some (numeral base digits) else none

/--
The number that C reads in a text: the digits behind `0x` are hexadecimal, those behind any other
zero octal.
-/
def integer? : List Char → Option Nat
  | '0' :: 'x' :: digits => number? 16 digits
  | '0' :: 'X' :: digits => number? 16 digits
  | '0' :: digits => number? 8 ('0' :: digits)
  | digits => number? 10 digits

theorem number?_of_lt
    {base : Nat}
    {digits : List Char}
    (hne : digits ≠ [])
    (h : ∀ c ∈ digits, figure c < base) :
    number? base digits = some (numeral base digits) :=
  if_pos ⟨hne, by simpa using h⟩

theorem number?_eq_none_iff {base : Nat} {digits : List Char} (hne : digits ≠ []) :
    number? base digits = none ↔ ∃ c ∈ digits, base ≤ figure c := by
  simp [number?, hne]

/-- Digits that C reads as octal ones. -/
theorem number?_eight_eq_iff {digits : List Char} (hne : digits ≠ []) :
    number? 8 digits = some (numeral 10 digits) ↔ numeral 10 digits < 8 := by
  constructor
  · intro h
    unfold number? at h
    split at h
    · rename_i hdigits
      by_contra hle
      have hlt : numeral 8 digits < numeral 10 digits :=
        ofDigits_eight_lt (by simpa using hdigits.2) (not_lt.1 hle)
      rw [Option.some.inj h] at hlt
      exact lt_irrefl _ hlt
    · cases h
  · intro h
    obtain ⟨hdigits, heq⟩ := ofDigits_eight_of_lt h
    rw [number?_of_lt hne (by simpa using hdigits)]
    exact congrArg some heq

theorem le_of_number?_eight
    {digits : List Char} {k : Nat} (h : number? 8 digits = some k) :
    k ≤ numeral 10 digits := by
  unfold number? at h
  split at h
  · obtain rfl := Option.some.inj h
    exact Nat.ofDigits_monotone _ (by decide)
  · cases h

end Target

/-! ### Literals -/

namespace Lexical

open Reading

/-- An integer in a source. -/
inductive IntegerLiteral
  | decimal (digits : Digits)
  | hexadecimal (digits : HexDigits)

namespace IntegerLiteral

/-- The text in the source. -/
def text : IntegerLiteral → List Char
  | decimal digits => digits.text
  | hexadecimal digits => digits.text ++ ['H']

/-- The text in C. -/
def lexeme : IntegerLiteral → String
  | decimal digits => String.ofList digits.text
  | hexadecimal digits => hexLexeme digits

/-- The number that is meant. -/
def value : IntegerLiteral → Nat
  | decimal digits => numeral 10 digits.text
  | hexadecimal digits => numeral 16 digits.text

/-- The text behind the literal does not continue it; hexadecimal digits end with their mark. -/
def Ends : IntegerLiteral → List Char → Prop
  | decimal _, behind =>
    Stops (fun c => isHexDigit c || c == 'H' || c == 'X') behind ∧ Stops (· == '.') behind
  | hexadecimal _, _ => True

/-- The compiler's own reading of a literal. -/
theorem ofLexeme_lexeme (n : IntegerLiteral) : Magnitude.ofLexeme n.lexeme = n.value := by
  unfold Magnitude.ofLexeme
  cases n with
  | decimal digits =>
    rw [lexeme, String.toList_ofList]
    split
    · rename_i others heq
      exact absurd heq (digits.ne_hexLexeme others)
    · exact ofDigits_eq_numeral 10 digits.isHexDigit_text
  | hexadecimal digits =>
    have hlexeme : (hexLexeme digits).toList = '0' :: 'x' :: digits.text := by simp [hexLexeme]
    rw [lexeme, hlexeme]
    exact ofDigits_eq_numeral 16 digits.isHexDigit_text

/-! ### Literals in C -/

/-- A zero in front of decimal digits makes them octal ones. -/
theorem integer?_of_zero {digits : Digits} (h : digits.first = '0') :
    Target.integer? digits.text = Target.number? 8 digits.text := by
  have hothers := digits.tail_others
  unfold Run.text
  rw [h]
  cases hdigits : digits.others with
  | nil => rfl
  | cons c others =>
    have hc : c.isDigit = true := hothers c (by simp [hdigits])
    unfold Target.integer?
    split
    · rename_i heq
      obtain ⟨-, rfl, -⟩ : '0' = '0' ∧ c = 'x' ∧ others = _ := by simpa using heq
      cases hc
    · rename_i heq
      obtain ⟨-, rfl, -⟩ : '0' = '0' ∧ c = 'X' ∧ others = _ := by simpa using heq
      cases hc
    · rename_i heq
      rw [heq]
    · rename_i hzero
      exact absurd rfl (hzero _)

theorem integer?_of_ne_zero {digits : Digits} (h : digits.first ≠ '0') :
    Target.integer? digits.text = some (numeral 10 digits.text) := by
  have hread : Target.integer? digits.text = Target.number? 10 digits.text := by
    unfold Target.integer? Run.text
    split
    · rename_i heq
      exact absurd (List.cons.inj heq).1 h
    · rename_i heq
      exact absurd (List.cons.inj heq).1 h
    · rename_i heq
      exact absurd (List.cons.inj heq).1 h
    · rfl
  rw [hread]
  exact Target.number?_of_lt (by simp [Run.text]) fun c hc =>
    figure_lt_ten (digits.isDigit_text c hc)

theorem integer?_hexLexeme (digits : HexDigits) :
    Target.integer? (hexLexeme digits).toList = some (numeral 16 digits.text) := by
  have hlexeme : (hexLexeme digits).toList = '0' :: 'x' :: digits.text := by simp [hexLexeme]
  rw [hlexeme]
  exact Target.number?_of_lt (by simp [Run.text]) fun c hc =>
    figure_lt_sixteen (digits.isHexDigit_text c hc)

/-- C reads the number that is meant, except behind a zero that makes the digits octal ones. -/
theorem integer?_lexeme_eq_iff (n : IntegerLiteral) :
    Target.integer? n.lexeme.toList = some n.value ↔
      ∀ digits, n = decimal digits → digits.first = '0' → n.value < 8 := by
  cases n with
  | decimal digits =>
    rw [lexeme, String.toList_ofList, value]
    by_cases hzero : digits.first = '0'
    · rw [integer?_of_zero hzero, Target.number?_eight_eq_iff (by simp [Run.text])]
      simp [hzero]
    · simp [integer?_of_ne_zero hzero, hzero]
  | hexadecimal digits => simp [lexeme, value, integer?_hexLexeme]

example : Target.integer? "010".toList = some 8 := by decide

/-- C reads no number only where an octal digit is expected and a larger one stands. -/
theorem integer?_lexeme_eq_none_iff (n : IntegerLiteral) :
    Target.integer? n.lexeme.toList = none ↔
      ∃ digits,
        n = decimal digits ∧ digits.first = '0' ∧ ('8' ∈ digits.text ∨ '9' ∈ digits.text) := by
  cases n with
  | decimal digits =>
    rw [lexeme, String.toList_ofList]
    by_cases hzero : digits.first = '0'
    · rw [integer?_of_zero hzero, Target.number?_eq_none_iff (by simp [Run.text])]
      constructor
      · rintro ⟨c, hc, hlarge⟩
        obtain rfl | rfl := (eight_le_figure_iff (digits.isDigit_text c hc)).1 hlarge
        · exact ⟨digits, rfl, hzero, .inl hc⟩
        · exact ⟨digits, rfl, hzero, .inr hc⟩
      · rintro ⟨others, heq, -, hc⟩
        cases heq
        obtain hc | hc := hc
        · exact ⟨'8', hc, by decide⟩
        · exact ⟨'9', hc, by decide⟩
    · simp [integer?_of_ne_zero hzero, hzero]
  | hexadecimal digits => simp [lexeme, integer?_hexLexeme]

theorem le_value_of_integer?
    {n : IntegerLiteral} {k : Nat} (h : Target.integer? n.lexeme.toList = some k) :
    k ≤ n.value := by
  cases n with
  | decimal digits =>
    rw [lexeme, String.toList_ofList] at h
    by_cases hzero : digits.first = '0'
    · rw [integer?_of_zero hzero] at h
      exact Target.le_of_number?_eight h
    · rw [integer?_of_ne_zero hzero] at h
      exact (Option.some.inj h).ge
  | hexadecimal digits =>
    rw [lexeme, integer?_hexLexeme] at h
    exact (Option.some.inj h).ge

end IntegerLiteral

/-! ### Scanning -/

theorem outcome_fraction_ne (taken input : List Char) (lexeme : String) :
    (fraction taken input).outcome ≠ .ok (.number .integer, lexeme) := by
  have hexponent : ∀ taken input,
      (exponent taken input).outcome ≠ .ok (.number .integer, lexeme) := by
    intro taken input
    unfold exponent
    dsimp only
    split <;> simp
  unfold fraction
  split
  · exact hexponent _ _
  · exact hexponent _ _
  · simp

theorem isDigit_of_outcome {c : Char} {input : List Char} {lexeme : String}
    (h : (of (c :: input)).outcome = .ok (.number .integer, lexeme)) : c.isDigit = true := by
  have hsign : (punctuation c input).outcome ≠ .ok (.number .integer, lexeme) := by
    unfold punctuation long short
    repeat' split
    all_goals simp
  obtain ⟨_, hstring⟩ := outcome_quoted .stringLiteral c input
  obtain ⟨_, hchar⟩ := outcome_quoted .charLiteral c input
  rw [of] at h
  split at h
  · cases h
  · split at h
    · assumption
    · split at h
      · cases hstring.symm.trans h
      · split at h
        · cases hchar.symm.trans h
        · exact absurd h hsign

/-- Decimal digits are an integer if no point follows. -/
theorem of_decimal_eq_integer
    {digits rest text behind : List Char}
    {lexeme : String}
    (h : decimal digits rest = ⟨.ok (.number .integer, lexeme), text, behind⟩) :
    (∀ c ∈ digits, c.isDigit = true) ∧
    Stops (· == '.') rest ∧
    lexeme = String.ofList digits ∧
    text = digits ∧
    behind = rest := by
  unfold decimal at h
  split at h
  · rename_i hdigits
    split at h
    · exact absurd (congrArg Reading.outcome h) (outcome_fraction_ne _ _ _)
    · rename_i hpoint
      cases h
      exact ⟨List.all_eq_true.1 hdigits, stops_beq hpoint, rfl, rfl, rfl⟩
  · cases h

/-- An integer is read exactly where a literal stands that does not go on. -/
theorem of_eq_integer_iff {input text rest : List Char} {lexeme : String} :
    of input = ⟨.ok (.number .integer, lexeme), text, rest⟩ ↔
      ∃ n : IntegerLiteral,
        input = n.text ++ rest ∧ n.Ends rest ∧ lexeme = n.lexeme ∧ text = n.text := by
  constructor
  · intro h
    cases input with
    | nil => cases h
    | cons c others =>
      have hc := isDigit_of_outcome (congrArg Reading.outcome h)
      have htext : (Run.ofTakeWhile c others hc : HexDigits).text =
          (c :: others).takeWhile isHexDigit :=
        Run.text_ofTakeWhile others hc fun _ => isHexDigit_of_isDigit
      have hsplit := List.takeWhile_append_dropWhile (p := isHexDigit) (l := c :: others)
      have hstops := stops_dropWhile isHexDigit (c :: others)
      rw [of_of_isDigit hc] at h
      unfold number at h
      split at h
      · rename_i behind hbehind
        cases h
        refine ⟨.hexadecimal (.ofTakeWhile c others hc), ?_, trivial, ?_, ?_⟩
        · simp only [IntegerLiteral.text, htext]
          rw [List.append_assoc, List.singleton_append, ← hbehind, hsplit]
        · simp only [IntegerLiteral.lexeme, hexLexeme, htext]
        · simp only [IntegerLiteral.text, htext]
      · cases h
      · rename_i hH hX
        obtain ⟨hdigits, hpoint, rfl, rfl, rfl⟩ := of_decimal_eq_integer h
        rw [← htext] at hdigits
        have hends := (hstops.or (stops_beq hH)).or (stops_beq hX)
        exact ⟨.decimal ⟨c, _, hc, fun d hd => hdigits d (List.mem_cons_of_mem _ hd)⟩,
          hsplit.symm.trans (congrArg (· ++ _) htext.symm), ⟨hends, hpoint⟩,
            congrArg String.ofList htext.symm, htext.symm⟩
  · rintro ⟨n, rfl, hends, rfl, rfl⟩
    cases n with
    | decimal digits =>
      obtain ⟨hmore, hpoint⟩ := hends
      rw [IntegerLiteral.text, digits.of_text_append hmore, digits.decimal_of_stops hpoint]
      rfl
    | hexadecimal digits => exact digits.of_text_append .integer rest

/-- A word is no integer, whatever it is reserved for. -/
theorem kind_reserve_ne {t : Token} (h : t.kind = .identifier) (word : Option Keyword) :
    (t.reserve word).kind ≠ .number .integer := by
  unfold Token.reserve
  split <;> simp [h]

theorem read_of_next
    {c cursor : Cursor}
    {symbols : SymbolTable}
    {token : Token}
    (h : c.next symbols = .ok token cursor)
    (hkind : token.kind = .number .integer) :
    c.read = (.ok token, cursor) := by
  unfold Cursor.next at h
  split at h
  · cases h
  · rename_i hread
    split at h
    · rename_i hword
      split at h
      · cases h
      · cases h
        exact absurd hkind (kind_reserve_ne hword _)
    · cases h
      exact hread

/-- The next token is an integer exactly where a literal stands that does not go on. -/
theorem next_eq_integer_iff {c cursor : Cursor} {symbols : SymbolTable} {token : Token} :
    c.next symbols = .ok token cursor ∧ token.kind = .number .integer ↔
      ∃ (n : IntegerLiteral) (rest : List Char), c.body = n.text ++ rest ∧ n.Ends rest ∧
        token = ⟨.number .integer, c.start, n.lexeme⟩ ∧ cursor = ⟨rest, c.start.after n.text⟩ := by
  constructor
  · rintro ⟨h, hkind⟩
    have hread := read_of_next h hkind
    have hreading : of c.body =
        ⟨.ok (.number .integer, token.lexeme), (of c.body).text, (of c.body).rest⟩ := by
      rw [← hkind]
      exact congrArg (fun outcome => (⟨outcome, (of c.body).text, (of c.body).rest⟩ : Reading))
        (Cursor.outcome_of_read hread)
    obtain ⟨n, hbody, hends, hlexeme, htext⟩ := of_eq_integer_iff.1 hreading
    rw [Cursor.read, Cursor.outcome_of_read hread, Prod.mk.injEq] at hread
    refine ⟨n, (of c.body).rest, hbody, hends, ?_, ?_⟩
    · rw [← Except.ok.inj hread.1, ← hlexeme, ← hkind]
      rfl
    · rw [← hread.2, htext]
  · rintro ⟨n, rest, hbody, hends, rfl, rfl⟩
    have hreading := of_eq_integer_iff.2 ⟨n, hbody, hends, rfl, rfl⟩
    refine ⟨?_, rfl⟩
    rw [Cursor.next, Cursor.read, hreading]
    rfl

end Lexical

/-! ### Compiling -/

namespace Compilation

open Oberon.Compilation.Action Oberon.Lexical Oberon.Grammar

/-- The current token is an integer literal. -/
def State.At (s : State) (n : IntegerLiteral) :
    Prop :=
  s.token.kind = .number .integer ∧ s.token.lexeme = n.lexeme

variable {depth : Nat} {s t u : State} {n : IntegerLiteral}

theorem gives_unique
    {α : Type}
    {action : Action α}
    {a b : α}
    (h : action.Gives depth s a t)
    (h' : action.Gives depth s b u) :
    b = a ∧ u = t := by
  have heq := h'.symm.trans h
  cases heq
  exact ⟨rfl, rfl⟩

/-- An integer as a factor is written as it is. -/
theorem gives_factor_iff (h : s.At n) (type : DataType) :
    factor.Gives (depth + 1) s type t ↔
      type = .integer ∧ ∃ u, Request.takeToken s = .ok () u ∧ t = u.write n.lexeme := by
  have hrule : (Rule.factor).action = factorRule := rfl
  rw [factor, gives_call, hrule, factorRule, gives_kind_bind, h.1]
  simp only [literal, gives_bind, gives_lexeme, gives_write, gives_pure]
  constructor
  · rintro ⟨_, u, ⟨rfl, htake⟩, _, v, hwrite, rfl, rfl⟩
    exact ⟨rfl, u, htake, h.2 ▸ hwrite⟩
  · rintro ⟨rfl, u, htake, rfl⟩
    exact ⟨_, u, ⟨rfl, htake⟩, (), _, h.2 ▸ rfl, rfl, rfl⟩

/-- An integer as the value of a constant, with or without a minus in front. -/
theorem gives_constantValue_iff
    {negated : Bool}
    (hsign : (accept (.sign .minus)).Gives depth s negated u)
    (h : u.At n)
    (value : String × DataType) :
    constantValue.Gives depth s value t ↔
      value = (if negated then "(-" ++ n.lexeme ++ ")" else n.lexeme, .integer) ∧
      Request.takeToken u = .ok () t := by
  unfold constantValue
  rw [gives_bind]
  constructor
  · rintro ⟨found, v, hfound, hvalue⟩
    obtain ⟨rfl, rfl⟩ := gives_unique hsign hfound
    rw [gives_kind_bind, h.1] at hvalue
    simp only [gives_bind, gives_lexeme, gives_pure] at hvalue
    obtain ⟨_, w, ⟨rfl, htake⟩, rfl, rfl⟩ := hvalue
    exact ⟨by rw [h.2]; rfl, htake⟩
  · rintro ⟨rfl, htake⟩
    refine ⟨negated, u, hsign, ?_⟩
    rw [gives_kind_bind, h.1]
    simp only [gives_bind, gives_lexeme, gives_pure]
    exact ⟨_, t, ⟨rfl, htake⟩, by rw [h.2]; rfl, rfl⟩

theorem arrayLength_lexeme (n : IntegerLiteral) :
    Magnitude.arrayLength n.lexeme = if n.value < 2 ^ 64 then n.value else 0 := by
  rw [Magnitude.arrayLength, n.ofLexeme_lexeme]
  rfl

/-- An array of as many elements as an integer says. -/
theorem array_of_declaredType
    (hword : (accept (.keyword .ARRAY)).Gives depth s true u)
    (h : u.At n)
    {d : Declarator}
    (hgives : declaredType.Gives depth s d t) :
    ∃ element : Declarator,
      d.left = element.left ∧
      d.right = "[" ++ n.lexeme ++ "]" ++ element.right ∧
      t.types.shapes[d.type.number]? =
        some ⟨.array, element.type, if n.value < 2 ^ 64 then n.value else 0⟩ := by
  unfold declaredType at hgives
  rw [gives_bind] at hgives
  obtain ⟨seen, v, hseen, hgives⟩ := hgives
  obtain ⟨rfl, rfl⟩ := gives_unique hword hseen
  rw [if_pos rfl] at hgives
  simp only [gives_bind, gives_ite, gives_pure] at hgives
  obtain ⟨⟨text, length⟩, w, hsize, _, x, -, _, y, -,
      ⟨-, _, _, h, -⟩ | ⟨-, element, z, -, type, _, htype, rfl, rfl⟩⟩ :=
    hgives
  · exact absurd h (gives_reject _ _)
  · unfold arraySize at hsize
    rw [gives_kind_bind, h.1] at hsize
    simp only [gives_bind, gives_lexeme, gives_pure] at hsize
    obtain ⟨_, _, ⟨rfl, -⟩, hfound, -⟩ := hsize
    obtain ⟨rfl, rfl⟩ := Prod.mk.inj hfound
    refine ⟨element, rfl, by rw [h.2], ?_⟩
    rw [← arrayLength_lexeme, ← h.2]
    exact shape_of_addType htype

/--
The scanner accepts integer literals, decimal ones and hexadecimal ones, and gives each its text in
C.  There C reads the number of the literal, unless decimal digits begin with a zero and mean eight
or more: then it reads a smaller number, or none if there is an `8` or a `9`.  A literal is written
as this text where it is a factor, the value of a constant or the size of an array, and the type of
the array has the number of the literal as its length if that is below `2 ^ 64`.
-/
theorem integer_literals_valued
    (n : IntegerLiteral)
    (c cursor : Cursor)
    (symbols : SymbolTable)
    (token : Token)
    (depth : Nat)
    (s t u : State) :
    (c.next symbols = .ok token cursor ∧ token.kind = .number .integer ↔
      ∃ (read : IntegerLiteral) (rest : List Char),
        c.body = read.text ++ rest ∧
        read.Ends rest ∧
        token = ⟨.number .integer, c.start, read.lexeme⟩ ∧
        cursor = ⟨rest, c.start.after read.text⟩) ∧
    (Target.integer? n.lexeme.toList = some n.value ↔
      ∀ digits, n = .decimal digits → digits.first = '0' → n.value < 8) ∧
    (Target.integer? n.lexeme.toList = none ↔
      ∃ digits, n = .decimal digits ∧ digits.first = '0' ∧
        ('8' ∈ digits.text ∨ '9' ∈ digits.text)) ∧
    (∀ k, Target.integer? n.lexeme.toList = some k → k ≤ n.value) ∧
    (u.At n →
      (∀ type,
        factor.Gives (depth + 1) u type t ↔
          type = .integer ∧ ∃ v, Request.takeToken u = .ok () v ∧ t = v.write n.lexeme) ∧
      (∀ negated value,
        (accept (.sign .minus)).Gives depth s negated u →
        (constantValue.Gives depth s value t ↔
          value = (if negated then "(-" ++ n.lexeme ++ ")" else n.lexeme, .integer) ∧
          Request.takeToken u = .ok () t)) ∧
      ∀ d,
        (accept (.keyword .ARRAY)).Gives depth s true u →
        declaredType.Gives depth s d t →
        ∃ element : Declarator,
          d.left = element.left ∧
          d.right = "[" ++ n.lexeme ++ "]" ++ element.right ∧
          t.types.shapes[d.type.number]? =
            some ⟨.array, element.type, if n.value < 2 ^ 64 then n.value else 0⟩) := by
  refine ⟨next_eq_integer_iff, n.integer?_lexeme_eq_iff, n.integer?_lexeme_eq_none_iff,
    fun _ => IntegerLiteral.le_value_of_integer?, fun h => ⟨gives_factor_iff h, ?_, ?_⟩⟩
  · exact fun _ value hsign => gives_constantValue_iff hsign h value
  · exact fun _ hword => array_of_declaredType hword h

/-- The literal `010`. -/
def zeroTen : IntegerLiteral :=
  .decimal {
    first := '0'
    others := ['1', '0']
    head_first := rfl
    tail_others := List.forall_mem_cons.2 ⟨rfl, List.forall_mem_singleton.2 rfl⟩ }

instance (s : State) (n : IntegerLiteral) : Decidable (s.At n) :=
  inferInstanceAs (Decidable (s.token.kind = .number .integer ∧ s.token.lexeme = n.lexeme))

/--
The number of `010` is ten, also as the length of an array.  As a factor, as the value of a
constant and as the size of the array it is written as it is, and C reads eight there.
-/
theorem integer_literals_valued_zeroTen :
    zeroTen.value = 10 ∧
    Target.integer? zeroTen.lexeme.toList = some 8 ∧
    (∃ u v : State,
      State.start "010" {} = .ok u ∧
      u.At zeroTen ∧
      factor.Gives 1 u .integer (v.write zeroTen.lexeme)) ∧
    (∃ s u t : State,
      State.start "-010" {} = .ok s ∧
      (accept (.sign .minus)).Gives 0 s true u ∧
      u.At zeroTen ∧
      constantValue.Gives 0 s ("(-" ++ zeroTen.lexeme ++ ")", .integer) t) ∧
    ∃ s u d t,
      State.start "ARRAY 010 OF CHAR" {} = .ok s ∧
      (accept (.keyword .ARRAY)).Gives 0 s true u ∧
      u.At zeroTen ∧
      declaredType.Gives 0 s d t ∧
      ∃ element : Declarator,
        d.right = "[" ++ zeroTen.lexeme ++ "]" ++ element.right ∧
        t.types.shapes[d.type.number]? = some ⟨.array, element.type, 10⟩ := by
  have hliteral (s t u : State) (hu : u.At zeroTen) :=
    (integer_literals_valued zeroTen (.ofText "") (.ofText "") .reserved s.token 0 s t u).2.2.2.2 hu
  refine ⟨by decide, by decide, ?_, ?_, ?_⟩
  · have hchecked : (State.start "010" {}).toOption.any (fun u =>
        (take.outcome? 0 u).any fun _ => decide (u.At zeroTen)) = true := by
      decide +kernel
    obtain ⟨u, hstart, hchecked⟩ := State.exists_start_of_any hchecked
    obtain ⟨_, v, htake, hu⟩ := exists_gives_of_any hchecked
    have hu := of_decide_eq_true hu
    refine ⟨u, v, hstart, hu, ?_⟩
    exact ((hliteral u _ u hu).1 .integer).2 ⟨rfl, v, (gives_take ()).1 htake, rfl⟩
  · have hchecked : (State.start "-010" {}).toOption.any (fun s =>
        ((accept (.sign .minus)).outcome? 0 s).any fun seen =>
          (take.outcome? 0 seen.2).any fun _ =>
            decide (seen.1 = true ∧ seen.2.At zeroTen)) = true := by
      decide +kernel
    obtain ⟨s, hstart, hchecked⟩ := State.exists_start_of_any hchecked
    obtain ⟨negated, u, hsign, hchecked⟩ := exists_gives_of_any hchecked
    obtain ⟨_, t, htake, hu⟩ := exists_gives_of_any hchecked
    obtain ⟨rfl, hu⟩ := of_decide_eq_true hu
    refine ⟨s, u, t, hstart, hsign, hu, ?_⟩
    exact ((hliteral s t u hu).2.1 true _ hsign).2 ⟨rfl, (gives_take ()).1 htake⟩
  · have hchecked : (State.start "ARRAY 010 OF CHAR" {}).toOption.any (fun s =>
        ((accept (.keyword .ARRAY)).outcome? 0 s).any fun seen =>
          (declaredType.outcome? 0 s).any fun _ =>
            decide (seen.1 = true ∧ seen.2.At zeroTen)) = true := by
      decide +kernel
    obtain ⟨s, hstart, hchecked⟩ := State.exists_start_of_any hchecked
    obtain ⟨seen, u, hword, hchecked⟩ := exists_gives_of_any hchecked
    obtain ⟨d, t, htype, hu⟩ := exists_gives_of_any hchecked
    obtain ⟨rfl, hu⟩ := of_decide_eq_true hu
    obtain ⟨element, -, hright, hshape⟩ := (hliteral s t u hu).2.2 d hword htype
    exact ⟨s, u, d, t, hstart, hword, hu, htype, element, hright, hshape⟩

end Compilation
end Oberon
