import Oberon.Proofs.Target.Reading
import Mathlib.Data.List.TakeWhile

/-!
# Legible words

The words of a source whose lexemes are put into the compiled text are lexemes of C: an identifier
has letters and digits only, and a literal is a number or a quoted text.  Neither identifiers nor
numbers have an underscore, which only the names of the compiled text have.

**Main results.**
* `Reading.legible_of`: what is read from a source is legible, whatever the source.
* `State.Passes.legible`: from a state at a legible token on, all tokens are legible.
-/

namespace Oberon

/-- Letters and digits only. -/
def Alphanumeric (text : List Char) : Prop := ∀ c ∈ text, c.isAlphanum = true

namespace Target

/-- A text between quotes of one kind, without such a quote inside. -/
def IsQuoted (text : List Char) : Prop :=
  ∃ mark more, (mark = '"' ∨ mark = '\'') ∧ (∀ c ∈ more, c ≠ mark) ∧ text = mark :: more ++ [mark]

/-- The text is one operand of C. -/
def IsOperand (text : List Char) : Prop :=
  (Lexeme.IsWord text ∧ String.ofList text ∉ typeNames) ∨ IsQuoted text

/-- The text is one word without an underscore, and no type has it as its name. -/
structure IsNumeral (text : List Char) : Prop where
  isWord : Lexeme.IsWord text
  notMem_typeNames : String.ofList text ∉ typeNames
  plain : '_' ∉ text

theorem IsNumeral.isOperand {text : List Char} (h : IsNumeral text) : IsOperand text :=
  Or.inl ⟨h.isWord, h.notMem_typeNames⟩

theorem IsQuoted.isOperand {text : List Char} (h : IsQuoted text) : IsOperand text :=
  Or.inr h

theorem IsQuoted.not_isWord {text : List Char} (h : IsQuoted text) : ¬ Lexeme.IsWord text := by
  obtain ⟨mark, more, hmark, -, rfl⟩ := h
  rintro ⟨c, rest, htext, hc, -⟩
  cases htext
  obtain rfl | rfl := hmark <;> cases hc

end Target

theorem Alphanumeric.underscore_notMem {text : List Char} (h : Alphanumeric text) : '_' ∉ text :=
  fun hmem => absurd (h '_' hmem) (by decide)

namespace Target

/-- The text begins with a digit and is one word without an underscore. -/
def IsNumber (text : List Char) : Prop :=
  ∃ c rest, text = c :: rest ∧ c.isDigit = true ∧ Lexeme.runsOn [c] rest = true ∧ '_' ∉ rest

namespace IsNumber

theorem append_of_runsOn
    {text more : List Char}
    (h : IsNumber text)
    (hmore : Lexeme.runsOn text more = true)
    (hplain : '_' ∉ more) :
    IsNumber (text ++ more) := by
  obtain ⟨c, rest, rfl, hc, hrest, hunderscore⟩ := h
  refine ⟨c, rest ++ more, rfl, hc, ?_, by simp [hunderscore, hplain]⟩
  rw [Lexeme.runsOn_append, hrest]
  simpa using hmore

theorem append_of_alphanumeric
    {text more : List Char} (h : IsNumber text) (hmore : Alphanumeric more) :
    IsNumber (text ++ more) := by
  refine h.append_of_runsOn (Lexeme.runsOn_of_forall_isNameChar fun c hc => ?_)
    hmore.underscore_notMem
  simp [Lexeme.isNameChar, hmore c hc]

theorem append_point {text : List Char} (h : IsNumber text) : IsNumber (text ++ ['.']) := by
  refine h.append_of_runsOn ?_ (by decide)
  obtain ⟨c, rest, rfl, hc, -⟩ := h
  simp [Lexeme.runsOn, Lexeme.continues, hc]

/-- A sign continues a number only behind its exponent mark. -/
theorem append_sign
    {text : List Char}
    {mark sign : Char}
    (h : IsNumber (text ++ [mark]))
    (hmark : mark = 'E' ∨ mark = 'e')
    (hsign : sign = '+' ∨ sign = '-') :
    IsNumber (text ++ [mark] ++ [sign]) := by
  refine h.append_of_runsOn ?_ (by obtain rfl | rfl := hsign <;> decide)
  obtain ⟨c, rest, hrest, hc, -⟩ := h
  have hhead : (text ++ [mark]).head? = some c := by rw [hrest]; rfl
  have hlast : (text ++ [mark]).getLast? = some mark := by simp
  obtain rfl | rfl := hmark <;> obtain rfl | rfl := hsign <;>
    simp [Lexeme.runsOn, Lexeme.continues, hhead, hlast, hc]

theorem isNumeral {text : List Char} (h : IsNumber text) : IsNumeral text := by
  obtain ⟨c, rest, rfl, hc, hrest, hplain⟩ := h
  refine ⟨⟨c, rest, rfl, by simp [Lexeme.isNameChar, Char.isAlphanum, hc], hrest⟩, fun hmem => ?_,
    ?_⟩
  · have hletter : ∀ name ∈ typeNames, ∀ d ∈ name.toList.head?, d.isDigit = false := by
      simp [typeNames]
    have hdigit := hletter _ hmem c (by simp)
    rw [hc] at hdigit
    cases hdigit
  · rw [List.mem_cons, not_or]
    refine ⟨?_, hplain⟩
    rintro rfl
    cases hc

end IsNumber

end Target

open Oberon.Target

/-- The word can stand in a C text: names are alphanumeric, and literals are numbers or quoted. -/
def Word.Legible : Word → Prop
  | (.identifier, text) => text.toList ≠ [] ∧ Alphanumeric text.toList
  | (.number _, text) => IsNumeral text.toList
  | (.charLiteral, text) => IsNumeral text.toList ∨ IsQuoted text.toList
  | (.stringLiteral, text) => IsQuoted text.toList
  | _ => True

/-! ### What is read is legible -/

namespace Reading

theorem alphanumeric_takeWhile (input : List Char) :
    Alphanumeric (input.takeWhile Char.isAlphanum) :=
  fun _ hc => List.mem_takeWhile_imp hc

theorem alphanumeric_digits (input : List Char) : Alphanumeric (input.takeWhile Char.isDigit) := by
  intro c hc
  have hdigit : c.isDigit = true := List.mem_takeWhile_imp hc
  simp [Char.isAlphanum, hdigit]

theorem isAlphanum_of_isHexDigit {c : Char} (h : isHexDigit c = true) : c.isAlphanum = true := by
  have hupper : 'A' ≤ c → c ≤ 'Z' → c.isUpper = true :=
    fun hlow hhigh => decide_eq_true ⟨hlow, hhigh⟩
  have hlower : 'a' ≤ c → c ≤ 'z' → c.isLower = true := fun hlow hhigh =>
    Bool.and_eq_true_iff.2 ⟨decide_eq_true hlow, decide_eq_true hhigh⟩
  have halphanumeric : c.isAlphanum = (c.isUpper || c.isLower || c.isDigit) := rfl
  simp only [isHexDigit, Bool.or_eq_true, Bool.and_eq_true, decide_eq_true_eq] at h
  obtain (hdigit | ⟨hlow, hhigh⟩) | ⟨hlow, hhigh⟩ := h
  · simp [halphanumeric, hdigit]
  · simp [halphanumeric, hupper hlow (UInt32.le_trans hhigh (by decide))]
  · simp [halphanumeric, hlower hlow (UInt32.le_trans hhigh (by decide))]

theorem alphanumeric_hexDigits (input : List Char) : Alphanumeric (input.takeWhile isHexDigit) :=
  fun _ hc => isAlphanum_of_isHexDigit (List.mem_takeWhile_imp hc)

theorem isNumber_exponent
    {taken input : List Char} {mark : Char} {found : Token.Kind × String} (htaken : IsNumber taken)
    (hmark : mark = 'E' ∨ mark = 'e') (h : (exponent (taken ++ [mark]) input).outcome = .ok found) :
    found.1 = .number .real ∧ IsNumber found.2.toList := by
  have hmarked : IsNumber (taken ++ [mark]) := by
    refine htaken.append_of_alphanumeric ?_
    obtain rfl | rfl := hmark <;> simp [Alphanumeric]
  have hsigned : IsNumber (taken ++ [mark] ++ exponentSign input) := by
    unfold exponentSign
    split
    · exact hmarked.append_sign hmark (Or.inl rfl)
    · exact hmarked.append_sign hmark (Or.inr rfl)
    · simpa using hmarked
  unfold exponent at h
  dsimp only at h
  split at h
  · cases h
  · cases h
    exact ⟨rfl, by simpa using hsigned.append_of_alphanumeric (alphanumeric_digits _)⟩

theorem isNumber_fraction
    {taken input : List Char}
    {found : Token.Kind × String}
    (htaken : IsNumber taken)
    (h : (fraction taken input).outcome = .ok found) :
    found.1 = .number .real ∧ IsNumber found.2.toList := by
  have hdigits := htaken.append_of_alphanumeric (alphanumeric_digits input)
  unfold fraction at h
  dsimp only at h
  split at h
  · exact isNumber_exponent hdigits (Or.inl rfl) h
  · exact isNumber_exponent hdigits (Or.inr rfl) h
  · cases h
    exact ⟨rfl, by simpa using hdigits⟩

theorem legible_decimal
    {digits rest : List Char} {found : Token.Kind × String} (hdigits : IsNumber digits)
    (h : (decimal digits rest).outcome = .ok found) : Word.Legible found := by
  unfold decimal at h
  split at h
  · split at h
    · obtain ⟨kind, lexeme⟩ := found
      obtain ⟨rfl, hnumber⟩ := isNumber_fraction hdigits.append_point h
      exact hnumber.isNumeral
    · cases h
      have hnumeral := hdigits.isNumeral
      simpa [Word.Legible] using hnumeral
  · cases h

theorem legible_number
    {c : Char} {rest : List Char} {found : Token.Kind × String} (hc : c.isDigit = true)
    (h : (number (c :: rest)).outcome = .ok found) : Word.Legible found := by
  have hhex : ∀ digits : List Char, Alphanumeric digits →
      IsNumeral ("0x" ++ String.ofList digits).toList := by
    intro digits hdigits
    have hzero : IsNumber ['0', 'x'] := ⟨'0', ['x'], rfl, rfl, rfl, by decide⟩
    simpa using (hzero.append_of_alphanumeric hdigits).isNumeral
  have hdigits : IsNumber ((c :: rest).takeWhile isHexDigit) := by
    have hhexDigit : isHexDigit c = true := by simp [isHexDigit, hc]
    rw [List.takeWhile_cons_of_pos hhexDigit]
    have hone : IsNumber [c] := ⟨c, [], rfl, hc, rfl, by simp⟩
    exact hone.append_of_alphanumeric (alphanumeric_hexDigits rest)
  unfold number at h
  dsimp only at h
  split at h
  · cases h
    exact hhex _ (alphanumeric_hexDigits _)
  · cases h
    exact Or.inl (hhex _ (alphanumeric_hexDigits _))
  · exact legible_decimal hdigits h

theorem isQuoted_quoted
    {kind : Token.Kind} {mark : Char} {input : List Char} {found : Token.Kind × String}
    (hmark : mark = '"' ∨ mark = '\'') (h : (quoted kind mark input).outcome = .ok found) :
    found.1 = kind ∧ IsQuoted found.2.toList := by
  have hbody : ∀ c ∈ input.takeWhile (· != mark), c ≠ mark := fun c hc => by
    simpa using List.mem_takeWhile_imp hc
  have hquoted : IsQuoted (String.ofList (mark :: input.takeWhile (· != mark) ++ [mark])).toList :=
    ⟨mark, _, hmark, hbody, by simp⟩
  unfold quoted at h
  dsimp only at h
  split at h
  · cases h
    exact ⟨rfl, hquoted⟩
  · cases h
    exact ⟨rfl, hquoted⟩

theorem legible_punctuation
    {c : Char} {rest : List Char} {found : Token.Kind × String}
    (h : (punctuation c rest).outcome = .ok found) : Word.Legible found := by
  unfold punctuation long short at h
  repeat' split at h
  all_goals cases h <;> trivial

/-- What is read from a text is legible. -/
theorem legible_of
    {input : List Char}
    {found : Token.Kind × String}
    (h : (of input).outcome = .ok found) :
    Word.Legible found := by
  unfold of at h
  split at h
  · cases h
    trivial
  · rename_i c rest
    split at h
    · rename_i hletter
      cases h
      have halphanumeric := alphanumeric_takeWhile (c :: rest)
      have hfirst : c.isAlphanum = true := by simp [Char.isAlphanum, hletter]
      refine ⟨by simp [hfirst], by simpa using halphanumeric⟩
    · split at h
      · rename_i hdigit
        exact legible_number hdigit h
      · obtain ⟨kind, lexeme⟩ := found
        split at h
        · rename_i hquote
          obtain ⟨rfl, hquoted⟩ := isQuoted_quoted (Or.inl hquote) h
          exact hquoted
        · split at h
          · rename_i hquote
            obtain ⟨rfl, hquoted⟩ := isQuoted_quoted (Or.inr hquote) h
            exact Or.inr hquoted
          · exact legible_punctuation h

end Reading

/-- A token that can stand in a C text. -/
def Token.Legible (t : Token) : Prop := Word.Legible (t.kind, t.lexeme)

theorem Token.Legible.word {t : Token} (h : t.Legible) : t.word.Legible := by
  obtain ⟨kind, position, lexeme⟩ := t
  cases kind <;> exact h

theorem Token.Legible.reserve
    {t : Token} (h : t.Legible) (word : Option Keyword) :
    (t.reserve word).Legible := by
  have hwords : IsNumeral "true".toList ∧ IsNumeral "false".toList ∧ IsNumeral "NULL".toList :=
    ⟨⟨by decide, by decide, by decide⟩, ⟨by decide, by decide, by decide⟩,
      ⟨by decide, by decide, by decide⟩⟩
  unfold Token.reserve
  split
  · exact h
  · exact hwords.1
  · exact hwords.2.1
  · exact hwords.2.2
  · trivial

theorem Cursor.legible_next
    {symbols : SymbolTable}
    {cursor behind : Cursor}
    {t : Token}
    (h : cursor.next symbols = .ok t behind) :
    t.Legible := by
  have hread : ∀ token after, cursor.read = (.ok token, after) → token.Legible := by
    intro token after hread
    unfold Cursor.read at hread
    simp only [Prod.mk.injEq] at hread
    obtain ⟨hread, -⟩ := hread
    cases houtcome : (Reading.of cursor.body).outcome with
    | error e => rw [houtcome] at hread; cases hread
    | ok found =>
      rw [houtcome] at hread
      cases hread
      exact Reading.legible_of houtcome
  unfold Cursor.next at h
  split at h
  · cases h
  · rename_i token after hfound
    split at h
    · split at h
      · cases h
      · cases h
        exact (hread _ _ hfound).reserve _
    · cases h
      exact hread _ _ hfound

namespace Compilation

theorem Request.legible_of_takeToken
    {s t : State} (h : Request.takeToken s = .ok () t) : t.token.Legible := by
  obtain ⟨token, cursor, hnext, rfl⟩ := Request.takeToken_eq_ok_iff.1 h
  exact Cursor.legible_next hnext

theorem State.Passes.legible
    {s t : State} {words : List Word} (h : s.Passes words t) (hs : s.token.Legible) :
    ∀ word ∈ words, word.Legible := by
  induction words generalizing s with
  | nil => simp
  | cons first words ih =>
    obtain ⟨rfl, u, htake, hrest⟩ := h
    intro word hword
    obtain rfl | hword := List.mem_cons.1 hword
    · exact hs.word
    · exact ih hrest (Request.legible_of_takeToken htake) word hword

end Compilation

/-! ### Names -/

namespace Grammar

/-- The name of the module and all declared names are alphanumeric. -/
structure Context.Legible (c : Context) : Prop where
  moduleName : Alphanumeric c.moduleName.toList
  names : ∀ index name, c.symbols.name index = .ok name → Alphanumeric name.toList

theorem Context.Legible.owner
    {c : Context} (h : c.Legible) (name : Name) :
    Alphanumeric (c.owner name).toList := by
  cases hfound : c.denotes? name with
  | none =>
    rw [Context.owner, hfound]
    exact h.moduleName
  | some found =>
    rw [Context.owner_of_denotes? hfound]
    have hplain : ∀ name, c.denotes? (.plain name) = some found → Alphanumeric found.1.toList := by
      intro name hname
      obtain ⟨_, _, -, -, -, howner⟩ := (c.denotes?_plain_iff ..).1 hname
      rw [howner]
      exact h.moduleName
    cases name with
    | plain name => exact hplain name hfound
    | member module name =>
      obtain ⟨_, target, _, -, -, -, ⟨-, hname⟩ | ⟨-, howner, -⟩⟩ :=
        (c.denotes?_member_iff ..).1 hfound
      · exact hplain name hname
      · exact h.names target found.1 howner

end Grammar

/-- Two alphanumeric texts around an underscore are a word, and no type has it as its name. -/
theorem isWord_underscore
    {first second : String}
    (hfirst : Alphanumeric first.toList)
    (hsecond : Alphanumeric second.toList) :
    Lexeme.IsWord (first ++ "_" ++ second).toList ∧ first ++ "_" ++ second ∉ typeNames := by
  have hall : ∀ c ∈ (first ++ "_" ++ second).toList, Lexeme.isNameChar c = true := by
    intro c hc
    simp only [String.toList_append, List.mem_append] at hc
    obtain (hc | hc) | hc := hc
    · simp [Lexeme.isNameChar, hfirst c hc]
    · obtain rfl : c = '_' := by simpa using hc
      rfl
    · simp [Lexeme.isNameChar, hsecond c hc]
  have hmem : '_' ∈ (first ++ "_" ++ second).toList := by simp
  refine ⟨Lexeme.isWord_of_forall_isNameChar (List.ne_nil_of_mem hmem) hall, fun htype => ?_⟩
  have hnone : ∀ name ∈ typeNames, '_' ∉ name.toList := by decide
  exact hnone _ htype hmem

open Grammar in
/-- A name stands behind that of its module as one word, and no type has it as its name. -/
theorem Grammar.Name.isWord_text
    {c : Context}
    (hc : c.Legible)
    (name : Name)
    (h : ∀ word ∈ name.spelling, word.Legible) :
    Lexeme.IsWord (mangle (c.owner name) name.own).toList ∧
    mangle (c.owner name) name.own ∉ typeNames := by
  have hown : Alphanumeric name.own.toList := by
    cases name with
    | plain name => exact (h (.identifier name) (by simp [Name.spelling])).2
    | member module name => exact (h (.identifier name) (by simp [Name.spelling])).2
  exact isWord_underscore (hc.owner name) hown

end Oberon
