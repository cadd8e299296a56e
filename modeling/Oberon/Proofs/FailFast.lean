import Oberon.Proofs.Lockstep
import Oberon.Proofs.Lexical.Foresight

/-!
# Failing on what has been read

A compilation that fails before the end of its source has not looked at what follows: the error, its
line and all that the compilation leaves behind depend on the text that the scanner has consumed and
on one character more.

**Breakdowns.**  `breakdown?` gives the reason and the line of a failure, and the state that the
failed compilation leaves: its symbols, its types and its unfinished texts, with the cursor where
the scanner stands.

**Method.**  Two runs over sources that are alike up to a character keep the same state in front of
different rests, as long as the first run stays in front of that character
(`lockstepWithin_exchanged`).

**Main statement.**  `breakdown?_eq_of_take_eq`.
-/

namespace Oberon

theorem Cursor.answer_eq_of_read {c d : Cursor} (h : c.read.1 = d.read.1) (symbols : SymbolTable) :
    c.answer symbols = d.answer symbols := by
  unfold answer next
  generalize c.read = first at h
  generalize d.read = second at h
  obtain ⟨outcome, behind⟩ := first
  obtain ⟨outcome', behind'⟩ := second
  obtain rfl : outcome = outcome' := h
  cases outcome with
  | error e => rfl
  | ok t =>
    dsimp only
    by_cases hname : t.kind = .identifier
    · rw [if_pos hname, if_pos hname]
      cases symbols.keyword? t.lexeme <;> rfl
    · rw [if_neg hname, if_neg hname]

namespace Compilation

/-! ### Failed compilations -/

/-- The state in front of the first token of a source, where no token is the current one yet. -/
def State.fresh (source : String) (symbols : SymbolTable) : State where
  cursor := .ofText source
  token := ⟨.eof, .first, ""⟩
  symbols
  scope := ⟨.module, symbols.size, .unknown⟩

/-- A failed compilation: the reason and the line that it gives, and the state that it leaves. -/
structure Breakdown where
  halt : Halt
  line : Nat
  left : State

/-- The number of characters that the scanner has consumed of a source. -/
def Breakdown.consumed (b : Breakdown) (source : String) : Nat :=
  source.toList.length - b.left.cursor.rest.length

/-- How the compilation of a source fails, if it does. -/
def breakdown? (source header : String) (limits : Limits) : Option Breakdown :=
  match (SymbolTable.empty limits).seed with
  | .error e symbols => some ⟨.rejected (.limit e), 1, .fresh source symbols⟩
  | .ok _ symbols =>
    match Request.takeToken (.fresh source symbols) with
    | .error halt s => some ⟨halt, 1, s⟩
    | .ok _ s =>
      match (wholeModule header).perform s with
      | .error halt t => some ⟨halt, t.line, t⟩
      | .ok _ _ => none

section Start

variable
  {source header : String} {limits : Limits} {symbols : SymbolTable} {s t : State} {halt : Halt}

/-- A compilation starts by taking the first token. -/
theorem start_of_takeToken
    (hseed : (SymbolTable.empty limits).seed = .ok () symbols)
    (h : Request.takeToken (.fresh source symbols) = .ok () s) :
    State.start source limits = .ok s := by
  obtain ⟨token, cursor, hnext, rfl⟩ := Request.takeToken_eq_ok_iff.1 h
  have hfirst : (Cursor.ofText source).next symbols = .ok token cursor := hnext
  unfold State.start
  rw [hseed]
  dsimp only
  rw [hfirst]
  rfl

theorem start_of_takeToken_error
    (hseed : (SymbolTable.empty limits).seed = .ok () symbols)
    (h : Request.takeToken (.fresh source symbols) = .error halt s) :
    State.start source limits = .error halt := by
  have hfresh : (State.fresh source symbols).cursor.next (State.fresh source symbols).symbols =
      (Cursor.ofText source).next symbols := rfl
  unfold Request.takeToken at h
  rw [hfresh] at h
  unfold State.start
  rw [hseed]
  dsimp only
  cases hnext : (Cursor.ofText source).next symbols with
  | ok token cursor =>
    rw [hnext] at h
    cases h
  | error scan cursor =>
    rw [hnext] at h
    cases scan with
    | malformed e =>
      cases h
      rfl
    | fault f =>
      cases h
      rfl

/-- At the first token a compilation halts for a diagnostic only. -/
theorem exists_rejected_of_takeToken
    (hseed : (SymbolTable.empty limits).seed = .ok () symbols)
    (h : Request.takeToken (.fresh source symbols) = .error halt s) :
    ∃ diagnostic, halt = .rejected diagnostic := by
  have hcases := start_cases source limits
  rw [start_of_takeToken_error hseed h] at hcases
  obtain ⟨e, rfl⟩ | ⟨e, rfl, -⟩ := hcases
  · exact ⟨_, rfl⟩
  · exact ⟨_, rfl⟩

theorem start_of_seed_error
    {e : LimitError} (hseed : (SymbolTable.empty limits).seed = .error e symbols) :
    State.start source limits = .error (.rejected (.limit e)) := by
  unfold State.start
  rw [hseed]

/-- The ways to break down: for want of room, at the first token or later. -/
inductive Breaks (source header : String) (limits : Limits) : Breakdown → Prop
  | room
      {e : LimitError}
      {symbols : SymbolTable}
      (hseed : (SymbolTable.empty limits).seed = .error e symbols) :
      Breaks source header limits ⟨.rejected (.limit e), 1, .fresh source symbols⟩
  | first
      {symbols : SymbolTable}
      {halt : Halt}
      {s : State}
      (hseed : (SymbolTable.empty limits).seed = .ok () symbols)
      (htake : Request.takeToken (.fresh source symbols) = .error halt s) :
      Breaks source header limits ⟨halt, 1, s⟩
  | later
      {symbols : SymbolTable}
      {halt : Halt}
      {s t : State}
      (hseed : (SymbolTable.empty limits).seed = .ok () symbols)
      (htake : Request.takeToken (.fresh source symbols) = .ok () s)
      (hperform : (wholeModule header).perform s = .error halt t) :
      Breaks source header limits ⟨halt, t.line, t⟩

theorem Breaks.breakdown?_eq {b : Breakdown} (h : Breaks source header limits b) :
    breakdown? source header limits = some b := by
  unfold breakdown?
  cases h with
  | room hseed => rw [hseed]
  | first hseed htake => simp only [hseed, htake]
  | later hseed htake hperform => simp only [hseed, htake, hperform]

theorem breaks_of_breakdown?
    {b : Breakdown} (h : breakdown? source header limits = some b) :
    Breaks source header limits b := by
  unfold breakdown? at h
  split at h
  · rename_i hseed
    cases h
    exact .room hseed
  · rename_i hseed
    split at h
    · rename_i htake
      cases h
      exact .first hseed htake
    · rename_i htake
      split at h
      · rename_i hperform
        cases h
        exact .later hseed htake hperform
      · cases h

/-- A compilation fails exactly if it breaks down, with the reason and the line of the breakdown. -/
theorem compile_eq_error_iff {name : String} {e : CompileError} :
    compile name source header limits = .error e ↔
      ∃ b, breakdown? source header limits = some b ∧ ⟨name, b.line, b.halt⟩ = e := by
  unfold compile breakdown?
  cases hseed : (SymbolTable.empty limits).seed with
  | error _ symbols =>
    rw [start_of_seed_error hseed]
    simp
  | ok _ symbols =>
    cases htake : Request.takeToken (.fresh source symbols) with
    | error halt s =>
      rw [start_of_takeToken_error hseed htake]
      simp [htake]
    | ok _ s =>
      rw [start_of_takeToken hseed htake]
      cases hperform : (wholeModule header).perform s with
      | ok _ t => simp [htake, hperform]
      | error halt t => simp [htake, hperform]

end Start

/-! ### The rest of the source -/

theorem cursor_takeToken (s : State) :
    (endState (Request.takeToken s)).cursor = s.cursor.read.2 := by
  unfold Request.takeToken
  rw [Cursor.next_eq_answer]
  cases s.cursor.answer s.symbols with
  | ok token => rfl
  | error halt => cases halt <;> rfl

/-- What is left of the source is an end of it. -/
theorem kept_rest : Kept fun s t => t.cursor.rest <:+ s.cursor.rest where
  refl s := List.suffix_refl _
  trans hst htu := htu.trans hst
  request request s := by
    have hends := request.ends_perform s
    generalize endState (request.perform s) = t at hends
    cases hends with
    | take htaken =>
      rw [← htaken, cursor_takeToken]
      exact s.cursor.rest_read
    | _ => exact List.suffix_refl _
  capture s t h := h
  procedure s t h := by
    rw [cursor_leave]
    exact h

theorem Breaks.rest
    {source header : String} {limits : Limits} {b : Breakdown} (h : Breaks source header limits b) :
    b.left.cursor.rest <:+ source.toList := by
  have hfirst : ∀ symbols,
      (endState (Request.takeToken (.fresh source symbols))).cursor.rest <:+ source.toList :=
    fun symbols => kept_rest.request .take (.fresh source symbols)
  cases h with
  | room hseed => exact List.suffix_refl _
  | @first symbols halt s hseed htake =>
    have hrest := hfirst symbols
    rwa [htake] at hrest
  | @later symbols halt s t hseed htake hperform =>
    have hrest := hfirst symbols
    have hmodule : (endState ((wholeModule header).perform s)).cursor.rest <:+ s.cursor.rest :=
      kept_rest.run (kept_rest.rule (s.remaining + 1)) (wholeModule header) s
    rw [htake] at hrest
    rw [hperform] at hmodule
    exact hmodule.trans hrest

/-! ### Two rests -/

section Exchanged

variable {d : Char} {behind other : List Char}

/-- The cursor stands in front of a character, or at it. -/
def InFront (behind : List Char) (c : Cursor) : Prop := behind.length < c.rest.length

/-- The same place in front of another rest, with the character `d` at the beginning of both. -/
def Exchanged
    (d : Char)
    (behind other : List Char)
    (c : Cursor)
    (token : Token)
    (c' : Cursor)
    (token' : Token) :
    Prop :=
  token' = token ∧ ∃ front, c.rest = front ++ d :: behind ∧ c' = ⟨front ++ d :: other, c.position⟩

theorem alikeWithin_takeToken :
    AlikeWithin (InFront behind) (Moved (Exchanged d behind other))
      (fun _ => False) Request.takeToken Request.takeToken where
  back s h := by
    rw [cursor_takeToken] at h
    exact Nat.lt_of_lt_of_le h s.cursor.rest_read.length_le
  alike {s t} h hwithin := by
    rw [cursor_takeToken] at hwithin
    obtain ⟨cursor, token, ⟨rfl, front, hrest, rfl⟩, rfl⟩ := h
    obtain ⟨left, hleft, hread⟩ := Cursor.read_foresees hrest hwithin other
    have hanswer : Cursor.answer s.symbols ⟨front ++ d :: other, s.cursor.position⟩ =
        s.cursor.answer s.symbols :=
      Cursor.answer_eq_of_read (by rw [hread]) s.symbols
    unfold Request.takeToken
    dsimp only
    rw [Cursor.next_eq_answer, Cursor.next_eq_answer, hanswer, hread]
    cases s.cursor.answer s.symbols with
    | ok token => exact .ok ⟨_, _, ⟨rfl, left, hleft, rfl⟩, rfl⟩
    | error halt =>
      cases halt with
      | malformed e => exact .error ⟨_, _, ⟨rfl, left, hleft, rfl⟩, rfl⟩
      | fault f => exact .error ⟨_, _, ⟨rfl, left, hleft, rfl⟩, rfl⟩

theorem lockstepWithin_exchanged (d : Char) (behind other : List Char) :
    LockstepWithin (InFront behind) (Moved (Exchanged d behind other)) fun _ => False :=
  lockstepWithin_moved alikeWithin_takeToken fun h => by rw [h.1]; exact ⟨rfl, rfl⟩

/--
In front of a character a compilation breaks down in the same way whatever stands behind that
character.
-/
theorem Breaks.exchanged
    {source source' header : String}
    {limits : Limits}
    {b : Breakdown}
    (h : Breaks source header limits b)
    (hwithin : InFront behind b.left.cursor)
    (hsources : ∀ symbols,
      Moved (Exchanged d behind other) (.fresh source symbols) (.fresh source' symbols)) :
    ∃ left,
      Breaks source' header limits { b with left } ∧
      Moved (Exchanged d behind other) b.left left := by
  cases h with
  | @room e symbols hseed => exact ⟨_, .room hseed, hsources symbols⟩
  | @first symbols halt s hseed htake =>
    have halike := alikeWithin_takeToken.alike (hsources symbols) (by rwa [htake])
    rw [htake] at halike
    obtain ⟨_, _, _, hok, -⟩ | ⟨diagnostic, _, t, hfirst, htake', hst⟩ | ⟨_, _, -, hfalse⟩ :=
      halike.cases_of_rejected
      (fun _ _ heq => by cases heq; exact exists_rejected_of_takeToken hseed htake)
      (fun _ _ => exists_rejected_of_takeToken hseed)
    · cases hok
    · cases hfirst
      exact ⟨t, .first hseed htake', hst⟩
    · exact hfalse.elim
  | @later symbols halt s t hseed htake hperform =>
    have hwithin' : InFront behind (endState ((wholeModule header).perform s)).cursor := by
      rwa [hperform]
    have hback :=
      ((lockstepWithin_exchanged d behind other).perform (wholeModule header)).back s hwithin'
    have halike := alikeWithin_takeToken.alike (hsources symbols) (by rwa [htake])
    rw [htake] at halike
    obtain ⟨_, _, s', hfirst, htake', hst⟩ | ⟨_, _, _, herror, -⟩ | ⟨_, _, -, hfalse⟩ :=
      halike.cases_of_rejected
      (fun _ _ heq => by cases heq) (fun _ _ => exists_rejected_of_takeToken hseed)
    · cases hfirst
      obtain ⟨_, _, hok, -⟩ | ⟨_, _, t', herror, hperform', htt⟩ | ⟨_, _, -, hfalse⟩ :=
        (lockstepWithin_exchanged d behind other).compiled (start_of_takeToken hseed htake)
          (start_of_takeToken hseed htake') hst
          hwithin'
      · rw [hperform] at hok
        cases hok
      · rw [hperform] at herror
        cases herror
        have hline : t'.line = t.line := by
          obtain ⟨cursor, token, ⟨rfl, front, -, rfl⟩, rfl⟩ := htt
          rfl
        exact ⟨t', hline ▸ .later hseed htake' hperform', htt⟩
      · exact hfalse.elim
    · cases herror
    · exact hfalse.elim

end Exchanged

end Compilation

open Compilation

/--
A compilation fails on what the scanner has consumed and one character more: on every source that
begins in the same way it fails with the same reason and line, and leaves the same symbols, types
and texts.
-/
theorem breakdown?_eq_of_take_eq
    {source source' header : String}
    {limits : Limits}
    {b : Breakdown}
    (h : breakdown? source header limits = some b)
    (hleft : b.consumed source < source.toList.length)
    (hsame : source'.toList.take (b.consumed source + 1) =
      source.toList.take (b.consumed source + 1))
    (name : String) :
    breakdown? source' header limits = some { b with
        left := { b.left with
          cursor := ⟨source'.toList.drop (b.consumed source), b.left.cursor.position⟩ } } ∧
      compile name source header limits = .error ⟨name, b.line, b.halt⟩ ∧
      compile name source' header limits = .error ⟨name, b.line, b.halt⟩ := by
  have hbreaks := breaks_of_breakdown? h
  obtain ⟨front, hsource⟩ := hbreaks.rest
  have hconsumed : b.consumed source = front.length := by
    unfold Breakdown.consumed
    rw [← hsource, List.length_append]
    omega
  rw [hconsumed] at hleft hsame ⊢
  obtain ⟨d, behind, hrest⟩ : ∃ d behind, b.left.cursor.rest = d :: behind := by
    refine List.exists_cons_of_ne_nil fun hnil => ?_
    rw [← hsource, hnil, List.append_nil] at hleft
    exact absurd hleft (Nat.lt_irrefl _)
  rw [hrest] at hsource
  have hsource' : source'.toList = front ++ d :: source'.toList.drop (front.length + 1) := by
    have hsplit := List.take_append_drop (front.length + 1) source'.toList
    rw [hsame, ← hsource, List.take_length_add_append] at hsplit
    simpa using hsplit.symm
  generalize source'.toList.drop (front.length + 1) = other at hsource'
  have hsources : ∀ symbols,
      Moved (Exchanged d behind other) (.fresh source symbols) (.fresh source' symbols) := by
    intro symbols
    refine ⟨.ofText source', _, ⟨rfl, front, hsource.symm, ?_⟩, rfl⟩
    unfold Cursor.ofText
    rw [hsource']
    rfl
  have hwithin : InFront behind b.left.cursor := by
    unfold InFront
    rw [hrest]
    exact Nat.lt_succ_self _
  obtain ⟨left, hbreaks', cursor, token, ⟨rfl, none, hnone, rfl⟩, rfl⟩ :=
    hbreaks.exchanged hwithin hsources
  obtain rfl : none = [] := by
    rw [hrest] at hnone
    simpa using hnone
  have hdrop : source'.toList.drop front.length = d :: other := by
    rw [hsource', List.drop_left]
  rw [hdrop]
  have hbreakdown := hbreaks'.breakdown?_eq
  exact ⟨hbreakdown, compile_eq_error_iff.2 ⟨b, h, rfl⟩,
    compile_eq_error_iff.2 ⟨_, hbreakdown, rfl⟩⟩

/--
A module that ends in a number is rejected before the scanner comes to a character that the language
does not use.
-/
theorem breakdown?_eq_of_unread_character :
    ∃ b, breakdown? "MODULE M;1 END M." "M.h" {} = some b ∧ b.consumed "MODULE M;1 END M." = 10 ∧
      breakdown? "MODULE M;1 @" "M.h" {} = some { b with
        left := { b.left with cursor := ⟨[' ', '@'], b.left.cursor.position⟩ } } ∧
      compile "M" "MODULE M;1 END M." "M.h" {} = .error ⟨"M", b.line, b.halt⟩ ∧
      compile "M" "MODULE M;1 @" "M.h" {} = .error ⟨"M", b.line, b.halt⟩ := by
  have hchecked : (breakdown? "MODULE M;1 END M." "M.h" {}).map
      (fun b => b.consumed "MODULE M;1 END M.") =
      some 10 := by
    decide +kernel
  obtain ⟨b, hb, hconsumed⟩ := Option.map_eq_some_iff.1 hchecked
  refine ⟨b, hb, hconsumed, ?_⟩
  have htake : "MODULE M;1 @".toList.take (b.consumed "MODULE M;1 END M." + 1) =
      "MODULE M;1 END M.".toList.take (b.consumed "MODULE M;1 END M." + 1) := by
    rw [hconsumed]
    decide
  have hsame := breakdown?_eq_of_take_eq hb (by rw [hconsumed]; decide) htake "M"
  rw [hconsumed] at hsame
  exact hsame

end Oberon
