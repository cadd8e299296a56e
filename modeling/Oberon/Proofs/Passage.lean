import Oberon.Proofs.Progress

/-!
# Passages

The common ground of the grammar and of the runs that read it: which tokens are taken and which text
is written between two states.

**Words.**  A word is a token as the grammar sees it, its kind and its text.  Signs and reserved
words have their text from their kind; other tokens have it from their lexeme.

**Passages.**  `s.Passes words t` says that the coming tokens of `s` are `words`, and that `t` is
`s` behind them.  `s.Translates words text t` adds that `text` has been written on the way.  Nothing
else changes in a passage, and passages can be joined and cut (`translates_append_iff`,
`Translates.cut`).
-/

namespace Oberon

/-- The text of a token that its kind alone determines. -/
def Token.Kind.fixedText? : Token.Kind → Option String
  | .sign s => some s.text
  | .keyword word => some word.spelling
  | .eof => some ""
  | _ => none

/-- A token as the grammar sees it: its kind and its text. -/
abbrev Word := Token.Kind × String

namespace Word

def sign (s : Sign) : Word := (.sign s, s.text)

def eof : Word := (.eof, "")

def keyword (word : Keyword) : Word := (.keyword word, word.spelling)

def identifier (name : String) : Word := (.identifier, name)

end Word

/-- The word that a token is. -/
def Token.word (t : Token) : Word :=
  (t.kind, t.kind.fixedText?.getD t.lexeme)

namespace Token

@[simp] theorem word_fst (t : Token) : t.word.1 = t.kind := rfl

@[simp] theorem word_eq_sign_iff (t : Token) (s : Sign) :
    t.word = Word.sign s ↔ t.kind = .sign s := by
  constructor
  · intro h
    exact congrArg Prod.fst h
  · intro h
    simp [Token.word, h, Kind.fixedText?, Word.sign]

@[simp] theorem word_eq_keyword_iff (t : Token) (word : Keyword) :
    t.word = Word.keyword word ↔ t.kind = .keyword word := by
  constructor
  · intro h
    exact congrArg Prod.fst h
  · intro h
    simp [Token.word, h, Kind.fixedText?, Word.keyword]

@[simp] theorem word_eq_eof_iff (t : Token) : t.word = Word.eof ↔ t.kind = .eof := by
  constructor
  · intro h
    exact congrArg Prod.fst h
  · intro h
    simp [Token.word, h, Kind.fixedText?, Word.eof]

/-- A token of an open kind is a word by its lexeme. -/
theorem word_eq_iff_of_open
    (t : Token) {kind : Kind} (hkind : kind.fixedText? = none) (text : String) :
    t.word = (kind, text) ↔ t.kind = kind ∧ t.lexeme = text := by
  constructor
  · intro h
    have hk : t.kind = kind := congrArg Prod.fst h
    refine ⟨hk, ?_⟩
    simpa [Token.word, hk, hkind] using h
  · rintro ⟨rfl, rfl⟩
    simp [Token.word, hkind]

@[simp] theorem word_eq_identifier_iff (t : Token) (name : String) :
    t.word = Word.identifier name ↔ t.kind = .identifier ∧ t.lexeme = name :=
  t.word_eq_iff_of_open rfl name

end Token

@[simp] theorem Output.write_interface (o : Output) (text : String) :
    (o.write text).units.interface = o.units.interface := by
  obtain ⟨units, captures⟩ := o
  cases captures <;> rfl

namespace Compilation
namespace State

/-! ### Passing tokens -/

/-- The coming tokens of `s` are `words`, and `t` is `s` behind them. -/
def Passes (s : State) : List Word → State → Prop
  | [], t => t = s
  | word :: words, t =>
      s.token.word = word ∧
        ∃ u, Request.takeToken s = .ok () u ∧ u.Passes words t

/-- Between `s` and `t` exactly the tokens `words` are taken and exactly `text` is written. -/
def Translates (s : State) (words : List Word) (text : String) (t : State) : Prop :=
  ∃ u, s.Passes words u ∧ t = u.write text

theorem passes_append_iff
    (before behind : List Word) (s t : State) :
    s.Passes (before ++ behind) t ↔
      ∃ u, s.Passes before u ∧ u.Passes behind t := by
  induction before generalizing s with
  | nil => simp [Passes]
  | cons word before ih =>
    simp only [List.cons_append, Passes, ih]
    constructor
    · rintro ⟨hword, u, htake, v, hbefore, hbehind⟩
      exact ⟨v, ⟨hword, u, htake, hbefore⟩, hbehind⟩
    · rintro ⟨v, ⟨hword, u, htake, hbefore⟩, hbehind⟩
      exact ⟨hword, u, htake, v, hbefore, hbehind⟩

/-! ### Writing -/

@[simp] theorem write_token (s : State) (text : String) : (s.write text).token = s.token := rfl

@[simp] theorem write_remaining (s : State) (text : String) :
    (s.write text).remaining = s.remaining := rfl

@[simp] theorem write_empty (s : State) : s.write "" = s := by
  obtain ⟨cursor, token, symbols, types, ⟨units, captures⟩, name, scope⟩ := s
  cases captures with
  | nil => simp [State.write, Output.write]
  | cons capture outer => simp [State.write, Output.write]

@[simp] theorem write_write (s : State) (first second : String) :
    (s.write first).write second = s.write (first ++ second) := by
  obtain ⟨cursor, token, symbols, types, ⟨units, captures⟩, name, scope⟩ := s
  cases captures with
  | nil => simp [State.write, Output.write, String.append_assoc]
  | cons capture outer => simp [State.write, Output.write, String.append_assoc]

/-- Tokens are taken alike whatever has been written. -/
theorem takeToken_output_iff (s t : State) (output : Output) :
    Request.takeToken { s with output } = .ok () t ↔
      ∃ u, Request.takeToken s = .ok () u ∧ t = { u with output } := by
  simp only [Request.takeToken_eq_ok_iff]
  constructor
  · rintro ⟨token, cursor, hnext, rfl⟩
    exact ⟨{ s with cursor, token }, ⟨token, cursor, hnext, rfl⟩, rfl⟩
  · rintro ⟨u, ⟨token, cursor, hnext, rfl⟩, rfl⟩
    exact ⟨token, cursor, hnext, rfl⟩

theorem output_eq_of_takeToken
    {s t : State} (h : Request.takeToken s = .ok () t) : t.output = s.output := by
  obtain ⟨token, cursor, -, rfl⟩ := Request.takeToken_eq_ok_iff.1 h
  rfl

theorem passes_output_iff
    (words : List Word) (s t : State) (output : Output) :
    Passes { s with output } words t ↔
      ∃ u, s.Passes words u ∧ t = { u with output } := by
  induction words generalizing s with
  | nil => simp [Passes]
  | cons word words ih =>
    simp only [Passes, takeToken_output_iff]
    constructor
    · rintro ⟨hword, u, ⟨v, htake, rfl⟩, hrest⟩
      rw [ih] at hrest
      obtain ⟨w, hpasses, rfl⟩ := hrest
      exact ⟨w, ⟨hword, v, htake, hpasses⟩, rfl⟩
    · rintro ⟨w, ⟨hword, v, htake, hpasses⟩, rfl⟩
      refine ⟨hword, { v with output }, ⟨v, htake, rfl⟩, ?_⟩
      rw [ih]
      exact ⟨w, hpasses, rfl⟩

theorem output_eq_of_passes
    {words : List Word} {s t : State} (h : s.Passes words t) : t.output = s.output := by
  induction words generalizing s with
  | nil => rw [show t = s from h]
  | cons word words ih =>
    obtain ⟨-, u, htake, hrest⟩ := h
    exact (ih hrest).trans (output_eq_of_takeToken htake)

/-- Text written before a passage can as well be written behind it. -/
theorem passes_write_iff
    (words : List Word) (s t : State) (text : String) :
    (s.write text).Passes words t ↔ ∃ u, s.Passes words u ∧ t = u.write text := by
  unfold State.write
  rw [passes_output_iff]
  constructor
  · rintro ⟨u, hpasses, rfl⟩
    exact ⟨u, hpasses, by rw [output_eq_of_passes hpasses]⟩
  · rintro ⟨u, hpasses, rfl⟩
    exact ⟨u, hpasses, by rw [output_eq_of_passes hpasses]⟩

/-! ### Computing passages -/

/-- The state behind coming tokens. -/
def behind? (s : State) : List Word → Option State
  | [] => some s
  | word :: words =>
    if s.token.word = word then
      match Request.takeToken s with
      | .ok _ u => u.behind? words
      | .error _ _ => none
    else none

theorem behind?_eq_some_iff
    (words : List Word) (s t : State) : s.behind? words = some t ↔ s.Passes words t := by
  induction words generalizing s with
  | nil => simp [behind?, Passes, eq_comm]
  | cons word words ih =>
    rw [behind?, Passes]
    cases Request.takeToken s with
    | ok a u => simp [ih]
    | error halt u => simp

instance (s : State) (words : List Word) (t : State) : Decidable (s.Passes words t) :=
  decidable_of_iff _ (behind?_eq_some_iff words s t)

instance (s : State) (words : List Word) (text : String) (t : State) :
    Decidable (s.Translates words text t) :=
  decidable_of_iff _ (passes_write_iff words s t text)

theorem translates_of_behind?
    {s t : State} {words : List Word} (h : s.behind? words = some t) (text : String) :
    s.Translates words text (t.write text) :=
  ⟨t, (behind?_eq_some_iff words s t).1 h, rfl⟩

/-- A property of the state at the beginning of a source can be checked. -/
theorem exists_start_of_any
    {source : String} {p : State → Bool} (h : (start source {}).toOption.any p = true) :
    ∃ s, start source {} = .ok s ∧ p s = true := by
  cases hstart : start source {} with
  | error halt => simp [hstart, Except.toOption] at h
  | ok s => exact ⟨s, rfl, by simpa [hstart, Except.toOption] using h⟩

/-- The state behind an action that is performed at the beginning of a source. -/
def behindAction? {α : Type} (action : Action α) (source : String) : Option State :=
  (start source {}).toOption.bind fun s =>
    (action.outcome? (s.remaining + 1) s).map Prod.snd

/-! ### Passages with text -/

theorem translates_nil_iff (s t : State) (text : String) :
    s.Translates [] text t ↔ t = s.write text := by
  simp [Translates, Passes]

theorem translates_take_iff (s t : State) (word : Word) :
    s.Translates [word] "" t ↔
      s.token.word = word ∧ Request.takeToken s = .ok () t := by
  simp [Translates, Passes]

theorem translates_append_iff
    (words others : List Word) (first second : String) (s t : State) :
    s.Translates (words ++ others) (first ++ second) t ↔
      ∃ u, s.Translates words first u ∧ u.Translates others second t := by
  unfold Translates
  constructor
  · rintro ⟨v, hpasses, rfl⟩
    rw [passes_append_iff] at hpasses
    obtain ⟨u, hwords, hothers⟩ := hpasses
    refine ⟨u.write first, ⟨u, hwords, rfl⟩, v.write first, ?_, by simp⟩
    rw [passes_write_iff]
    exact ⟨v, hothers, rfl⟩
  · rintro ⟨w, ⟨u, hwords, rfl⟩, v, hothers, rfl⟩
    rw [passes_write_iff] at hothers
    obtain ⟨x, hothers, rfl⟩ := hothers
    refine ⟨x, ?_, by simp⟩
    rw [passes_append_iff]
    exact ⟨u, hwords, hothers⟩

namespace Translates

variable {s t u : State} {words others : List Word} {first second : String}

theorem refl (s : State) : s.Translates [] "" s := by
  simp [translates_nil_iff]

theorem written (s : State) (text : String) : s.Translates [] text (s.write text) := by
  rw [translates_nil_iff]

theorem taken (h : Request.takeToken s = .ok () t) : s.Translates [s.token.word] "" t := by
  rw [translates_take_iff]
  exact ⟨rfl, h⟩

theorem trans
    (hfirst : s.Translates words first u) (hsecond : u.Translates others second t) :
    s.Translates (words ++ others) (first ++ second) t :=
  (translates_append_iff words others first second s t).2 ⟨u, hfirst, hsecond⟩

theorem token_eq (h : s.Translates [] first t) : t.token = s.token := by
  rw [translates_nil_iff] at h
  rw [h]
  rfl

theorem token_word
    {word : Word} (h : s.Translates (word :: words) first t) : s.token.word = word := by
  obtain ⟨u, ⟨hfirst, -⟩, -⟩ := h
  exact hfirst

theorem token_kind
    {word : Word} (h : s.Translates (word :: words) first t) : s.token.kind = word.1 :=
  congrArg Prod.fst h.token_word

end Translates

/-- Passages one behind the other. -/
def Course (s : State) : List (List Word × String) → State → Prop
  | [], t => t = s
  | leg :: legs, t => ∃ u, s.Translates leg.1 leg.2 u ∧ u.Course legs t

theorem course_iff (legs : List (List Word × String)) (s t : State) :
    s.Course legs t ↔
      s.Translates (legs.flatMap Prod.fst) (legs.foldr (fun leg rest => leg.2 ++ rest) "") t := by
  induction legs generalizing s with
  | nil => simp [Course, translates_nil_iff]
  | cons leg legs ih =>
    rw [List.flatMap_cons, List.foldr_cons, translates_append_iff, Course]
    simp only [ih]

/-- A passage can be cut into legs wherever its words and its text can. -/
theorem Translates.cut
    {words : List Word} {text : String} {s t : State} (h : s.Translates words text t)
    (legs : List (List Word × String))
    (hwords : words = legs.flatMap Prod.fst)
    (htext : text = legs.foldr (fun leg rest => leg.2 ++ rest) "") :
    s.Course legs t := by
  rw [course_iff, ← hwords, ← htext]
  exact h

/-- What is written while a capture is open goes to the capture. -/
theorem translates_openCapture_iff
    (words : List Word) (text : String) (s u : State) :
    Translates { s with output := s.output.openCapture } words text u ↔
      ∃ v, s.Translates words "" v ∧
        u = { v with output := { v.output with captures := text :: v.output.captures } } := by
  unfold Translates
  simp only [passes_output_iff, write_empty]
  constructor
  · rintro ⟨_, ⟨v, hpasses, rfl⟩, rfl⟩
    refine ⟨v, ⟨v, hpasses, rfl⟩, ?_⟩
    simp [State.write, Output.write, Output.openCapture, output_eq_of_passes hpasses]
  · rintro ⟨v, ⟨_, hpasses, rfl⟩, rfl⟩
    refine ⟨_, ⟨v, hpasses, rfl⟩, ?_⟩
    simp [State.write, Output.write, Output.openCapture, output_eq_of_passes hpasses]

/-! ### What a passage leaves alone -/

section Frame

variable {s t : State} {words : List Word} {text : String}

/-- A passage moves through the source and does nothing else. -/
theorem Passes.frame (h : s.Passes words t) :
    ∃ cursor token, t = { s with cursor, token } := by
  induction words generalizing s with
  | nil => exact ⟨s.cursor, s.token, h⟩
  | cons word words ih =>
    obtain ⟨-, u, htake, hrest⟩ := h
    obtain ⟨cursor, token, rfl⟩ := ih hrest
    obtain ⟨token', cursor', -, rfl⟩ := Request.takeToken_eq_ok_iff.1 htake
    exact ⟨cursor, token, rfl⟩

/-- A passage with text moves through the source, writes the text and does nothing else. -/
theorem Translates.frame (h : s.Translates words text t) :
    ∃ cursor token, t = { s with cursor, token, output := s.output.write text } := by
  obtain ⟨u, hpasses, rfl⟩ := h
  obtain ⟨cursor, token, rfl⟩ := hpasses.frame
  exact ⟨cursor, token, rfl⟩

theorem Translates.scope_eq (h : s.Translates words text t) : t.scope = s.scope := by
  obtain ⟨cursor, token, rfl⟩ := h.frame
  rfl

theorem Passes.remaining_le (h : s.Passes words t) : t.remaining ≤ s.remaining := by
  induction words generalizing s with
  | nil => rw [show t = s from h]
  | cons word words ih =>
    obtain ⟨-, u, htake, hrest⟩ := h
    exact Nat.le_trans (ih hrest) (remaining_takeToken_le htake)

theorem Translates.remaining_le (h : s.Translates words text t) : t.remaining ≤ s.remaining := by
  obtain ⟨u, hpasses, rfl⟩ := h
  exact hpasses.remaining_le

/-- A passage over a word that is not the end of the source makes progress. -/
theorem Translates.remaining_lt
    {word : Word} (h : s.Translates (word :: words) text t) (hword : word.1 ≠ .eof) :
    t.remaining < s.remaining := by
  obtain ⟨u, ⟨hfirst, v, htake, hrest⟩, rfl⟩ := h
  have hs : s.token.kind ≠ .eof := by
    rw [← hfirst] at hword
    exact hword
  exact Nat.lt_of_le_of_lt hrest.remaining_le (remaining_takeToken_lt htake hs)

end Frame

end State

/-! ### Primitive steps as passages -/

namespace Action

variable {α : Type} {depth : Nat} {s t : State}

theorem gives_expect_sign_iff (sign : Sign) (a : Unit) :
    (expect (.sign sign)).Gives depth s a t ↔ s.Translates [.sign sign] "" t := by
  rw [gives_expect, State.translates_take_iff, Token.word_eq_sign_iff]

theorem gives_expect_keyword_iff (word : Keyword) (a : Unit) :
    (expect (.keyword word)).Gives depth s a t ↔ s.Translates [.keyword word] "" t := by
  rw [gives_expect, State.translates_take_iff, Token.word_eq_keyword_iff]

theorem gives_expect_eof_iff (a : Unit) :
    (expect .eof).Gives depth s a t ↔ s.Translates [.eof] "" t := by
  rw [gives_expect, State.translates_take_iff, Token.word_eq_eof_iff]

theorem gives_take_sign_iff {sign : Sign} (hkind : s.token.kind = .sign sign) (a : Unit) :
    take.Gives depth s a t ↔ s.Translates [.sign sign] "" t := by
  simp [State.translates_take_iff, hkind]

theorem gives_take_keyword_iff {word : Keyword} (hkind : s.token.kind = .keyword word) (a : Unit) :
    take.Gives depth s a t ↔ s.Translates [.keyword word] "" t := by
  simp [State.translates_take_iff, hkind]

theorem gives_accept_sign_iff (sign : Sign) (seen : Bool) :
    (accept (.sign sign)).Gives depth s seen t ↔
      (s.Translates [.sign sign] "" t ∧ seen = true) ∨
      (s.token.kind ≠ .sign sign ∧ t = s ∧ seen = false) := by
  rw [gives_accept, State.translates_take_iff, Token.word_eq_sign_iff, and_assoc]

theorem gives_accept_keyword_iff (word : Keyword) (seen : Bool) :
    (accept (.keyword word)).Gives depth s seen t ↔
      (s.Translates [.keyword word] "" t ∧ seen = true) ∨
      (s.token.kind ≠ .keyword word ∧ t = s ∧ seen = false) := by
  rw [gives_accept, State.translates_take_iff, Token.word_eq_keyword_iff, and_assoc]

theorem gives_if_accept_sign_iff (sign : Sign) (x y : Action α) (a : α) :
    Gives depth (do if ← accept (.sign sign) then x else y) s a t ↔
      (∃ u, s.Translates [.sign sign] "" u ∧ x.Gives depth u a t) ∨
      (s.token.kind ≠ .sign sign ∧ y.Gives depth s a t) := by
  simp only [gives_bind, gives_accept_sign_iff, gives_ite]
  constructor
  · rintro ⟨_, u, ⟨htaken, rfl⟩ | ⟨hkind, rfl, rfl⟩, h⟩
    · exact Or.inl ⟨u, htaken, by simpa using h⟩
    · exact Or.inr ⟨hkind, by simpa using h⟩
  · rintro (⟨u, htaken, h⟩ | ⟨hkind, h⟩)
    · exact ⟨true, u, Or.inl ⟨htaken, rfl⟩, by simpa using h⟩
    · exact ⟨false, s, Or.inr ⟨hkind, rfl, rfl⟩, by simpa using h⟩

theorem gives_if_accept_keyword_iff (word : Keyword) (x y : Action α) (a : α) :
    Gives depth (do if ← accept (.keyword word) then x else y) s a t ↔
      (∃ u, s.Translates [.keyword word] "" u ∧ x.Gives depth u a t) ∨
      (s.token.kind ≠ .keyword word ∧ y.Gives depth s a t) := by
  simp only [gives_bind, gives_accept_keyword_iff, gives_ite]
  constructor
  · rintro ⟨_, u, ⟨htaken, rfl⟩ | ⟨hkind, rfl, rfl⟩, h⟩
    · exact Or.inl ⟨u, htaken, by simpa using h⟩
    · exact Or.inr ⟨hkind, by simpa using h⟩
  · rintro (⟨u, htaken, h⟩ | ⟨hkind, h⟩)
    · exact ⟨true, u, Or.inl ⟨htaken, rfl⟩, by simpa using h⟩
    · exact ⟨false, s, Or.inr ⟨hkind, rfl, rfl⟩, by simpa using h⟩

theorem gives_identifier_iff (name : String) :
    identifier.Gives depth s name t ↔ s.Translates [.identifier name] "" t := by
  rw [gives_identifier, State.translates_take_iff, Token.word_eq_identifier_iff, and_assoc,
    @eq_comm _ name]

theorem gives_write_iff (text : String) (a : Unit) :
    (write text).Gives depth s a t ↔ s.Translates [] text t := by
  rw [gives_write, State.translates_nil_iff]

/-- A captured passage hands out its text and leaves what has been written as it is. -/
theorem gives_textOf_iff {ι : Type} {body : Action α}
    (words : ι → List Word) (text : ι → String) (Fits : α → ι → Token.Kind → Prop)
    (hbody : ∀ a u, body.Gives depth { s with output := s.output.openCapture } a u ↔
      ∃ x, Fits a x u.token.kind ∧
        State.Translates { s with output := s.output.openCapture } (words x) (text x) u)
    (result : α × String) :
    (textOf body).Gives depth s result t ↔
      ∃ x, Fits result.1 x t.token.kind ∧ result.2 = text x ∧ s.Translates (words x) "" t := by
  rw [gives_textOf]
  simp only [hbody, State.translates_openCapture_iff]
  constructor
  · rintro ⟨_, ⟨x, hfits, v, hpassage, rfl⟩, htext, rfl⟩
    exact ⟨x, hfits, htext, hpassage⟩
  · rintro ⟨x, hfits, htext, hpassage⟩
    exact ⟨{ t with output := { t.output with captures := text x :: t.output.captures } },
      ⟨x, hfits, t, hpassage, rfl⟩, htext, rfl⟩

end Action
end Compilation
end Oberon
