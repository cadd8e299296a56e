import Oberon.Proofs.Lockstep

/-!
# Layout of a source

White space, comments and the places of tokens have no say in what a source is compiled to.  Two
sources with the same tokens, up to their places, are compiled to the same texts or rejected with
the same diagnostic.

**Method.**  What a cursor has to offer is the sequence of its readings without their places
(`Cursor.contents`).  Equal sequences are what two runs over the two sources keep in lockstep.  A
list of tokens with the reserved words told apart determines the readings it comes from
(`Token.unreserve_classify`).

**Main statement.**  `compile_eq_of_same_tokens`.
-/

namespace Oberon

/-- Kind and lexeme of a token, without its place. -/
def Token.content (t : Token) : Token.Kind × String := (t.kind, t.lexeme)

/-- The kinds that are read before the reserved words are told apart. -/
def Token.Kind.Raw : Token.Kind → Prop
  | .keyword _ => False
  | .number .boolean => False
  | .number .nil => False
  | _ => True

theorem Reading.raw_of
    {input : List Char}
    {kind : Token.Kind}
    {lexeme : String}
    (h : (of input).outcome = .ok (kind, lexeme)) :
    kind.Raw := by
  cases input with
  | nil =>
    cases h
    trivial
  | cons c rest =>
    simp only [of, word, number, decimal, fraction, exponent, quoted, punctuation, long, short] at h
    repeat' split at h
    all_goals simp_all only [Except.ok.injEq, Prod.mk.injEq, reduceCtorEq]
    all_goals obtain ⟨rfl, -⟩ := h
    all_goals trivial

namespace Token

/-- The reserved words are told apart by the content of a token alone. -/
theorem content_reserve {t u : Token} (h : t.content = u.content) (word : Option Keyword) :
    (t.reserve word).content = (u.reserve word).content := by
  have hlexeme : t.lexeme = u.lexeme := congrArg Prod.snd h
  cases word with
  | none => exact h
  | some word => cases word <;> simp [reserve, content, hlexeme]

/-- The reserved word that has become a token with some content. -/
def wordBehind? : Token.Kind × String → Option Keyword
  | (.keyword word, _) => some word
  | (.number .boolean, lexeme) => if lexeme = "true" then some .TRUE else some .FALSE
  | (.number .nil, _) => some .NIL
  | _ => none

theorem wordBehind?_reserve (t : Token) (word : Keyword) :
    wordBehind? (t.reserve (some word)).content = some word := by
  cases word <;> simp [reserve, content, wordBehind?]

theorem wordBehind?_of_raw {t : Token} (h : t.kind.Raw) : wordBehind? t.content = none := by
  obtain ⟨kind, position, lexeme⟩ := t
  cases kind with
  | number numeral => cases numeral <;> first | rfl | exact h.elim
  | keyword word => exact h.elim
  | _ => rfl

/-- The content that was read, from what it became when the reserved words were told apart. -/
def unreserve (content : Token.Kind × String) : Token.Kind × String :=
  match wordBehind? content with
  | none => content
  | some word => (.identifier, word.spelling)

theorem unreserve_classify {t : Token} (ht : t.kind.Raw) :
    unreserve (t.classify Keyword.ofSpelling?).content = t.content := by
  have hraw : unreserve t.content = t.content := by
    unfold unreserve
    rw [wordBehind?_of_raw ht]
  unfold classify
  by_cases hkind : t.kind = .identifier
  · rw [if_pos hkind]
    cases hfound : Keyword.ofSpelling? t.lexeme with
    | none => exact hraw
    | some word =>
      unfold unreserve
      rw [wordBehind?_reserve]
      exact Prod.ext hkind.symm (Keyword.spelling_of_ofSpelling? hfound)
  · rw [if_neg hkind]
    exact hraw

end Token

namespace Cursor

/-- What a cursor has to offer: its readings one after the other, without their places. -/
def contents (c : Cursor) (k : Nat) : Except ScanError (Token.Kind × String) :=
  (c.ahead k).read.1.map Token.content

/-- Behind the end of the source there is only the end of the source. -/
theorem contents_of_body_nil
    {c : Cursor} (h : c.body = []) (k : Nat) :
    c.contents k = .ok (.eof, "") := by
  induction k generalizing c with
  | zero =>
    unfold contents ahead
    rw [read_of_body_nil h]
    rfl
  | succ k ih =>
    have hbehind : c.read.2.body = [] := by
      rw [read_of_body_nil h]
      rfl
    exact ih hbehind

theorem outcome_of_read {c behind : Cursor} {t : Token} (h : c.read = (.ok t, behind)) :
    (Reading.of c.body).outcome = .ok t.content := by
  unfold read at h
  cases houtcome : (Reading.of c.body).outcome with
  | error e => simp [houtcome, Except.map] at h
  | ok found =>
    simp only [houtcome, Except.map, Prod.mk.injEq, Except.ok.injEq] at h
    rw [← h.1]
    rfl

theorem body_eq_nil_of_read
    {c behind : Cursor}
    {t : Token}
    (h : c.read = (.ok t, behind))
    (ht : t.kind = .eof) :
    c.body = [] := by
  have houtcome := outcome_of_read h
  cases hbody : c.body with
  | nil => rfl
  | cons first rest =>
    rw [hbody] at houtcome
    exact absurd ht (Reading.kind_ne_eof houtcome)

/--
Where there are tokens there is a first one, which is the end of the source or has the others behind
it.
-/
theorem tokens_eq_ok_cases
    {c : Cursor}
    {list : List Token}
    {reserved : String → Option Keyword}
    (h : c.tokens reserved = .ok list) :
    ∃ t behind,
      c.read = (.ok t, behind) ∧
      (t.kind = .eof ∧ list = [t] ∨
        t.kind ≠ .eof ∧
        ∃ others, behind.tokens reserved = .ok others ∧ list = t.classify reserved :: others) := by
  cases hread : c.read with
  | mk outcome behind =>
    cases outcome with
    | error e =>
      rw [tokens] at h
      split at h
      · cases h
      · rename_i hok
        rw [hread] at hok
        cases hok
    | ok t =>
      refine ⟨t, behind, rfl, ?_⟩
      rw [tokens_of_read _ hread] at h
      split at h
      · rename_i hkind
        cases h
        exact Or.inl ⟨hkind, rfl⟩
      · rename_i hkind
        cases hothers : behind.tokens reserved with
        | error e => simp [hothers, Except.map] at h
        | ok others =>
          rw [hothers] at h
          cases h
          exact Or.inr ⟨hkind, others, rfl, rfl⟩

/-- The tokens of a text are the first one and those behind it, up to the end of the source. -/
theorem exists_read_of_tokens
    {c : Cursor}
    {list : List Token}
    {reserved : String → Option Keyword}
    (h : c.tokens reserved = .ok list) :
    ∃ t behind others,
      c.read = (.ok t, behind) ∧
      list = t.classify reserved :: others ∧
      (t.kind = .eof ∨ behind.tokens reserved = .ok others) := by
  obtain ⟨t, behind, hread, ⟨hkind, rfl⟩ | ⟨-, others, hothers, rfl⟩⟩ := tokens_eq_ok_cases h
  · exact ⟨t, behind, [], hread, by simp [Token.classify, hkind], Or.inl hkind⟩
  · exact ⟨t, behind, others, hread, rfl, Or.inr hothers⟩

/-- The tokens of a text determine all that it has to offer. -/
theorem contents_eq_of_tokens
    {c d : Cursor}
    {list list' : List Token}
    (hc : c.tokens Keyword.ofSpelling? = .ok list)
    (hd : d.tokens Keyword.ofSpelling? = .ok list')
    (h : list.map Token.content = list'.map Token.content)
    (k : Nat) :
    c.contents k = d.contents k := by
  induction list generalizing c d list' k with
  | nil =>
    obtain ⟨_, _, _, -, hnil, -⟩ := exists_read_of_tokens hc
    cases hnil
  | cons first list ih =>
    obtain ⟨t, behind, others, hread, hfirst, hothers⟩ := exists_read_of_tokens hc
    obtain ⟨t', behind', others', hread', rfl, hothers'⟩ := exists_read_of_tokens hd
    obtain ⟨rfl, rfl⟩ := List.cons.inj hfirst
    obtain ⟨hclassify, htail⟩ := List.cons.inj h
    have hcontent : t.content = t'.content := by
      have hraw := Reading.raw_of (outcome_of_read hread)
      have hraw' := Reading.raw_of (outcome_of_read hread')
      rw [← Token.unreserve_classify hraw, ← Token.unreserve_classify hraw', hclassify]
    have hkind : t.kind = t'.kind := congrArg Prod.fst hcontent
    by_cases heof : t.kind = .eof
    · rw [contents_of_body_nil (body_eq_nil_of_read hread heof),
        contents_of_body_nil (body_eq_nil_of_read hread' (hkind ▸ heof))]
    · cases k with
      | zero =>
        unfold contents ahead
        rw [hread, hread']
        exact congrArg Except.ok hcontent
      | succ k =>
        unfold contents ahead
        rw [hread, hread']
        exact ih (hothers.resolve_left heof) (hothers'.resolve_left (hkind ▸ heof)) htail k

/-- Where two cursors offer the same, the scanner finds the same. -/
theorem next_of_contents
    {c d : Cursor} (h : c.contents 0 = d.contents 0) (symbols : SymbolTable) :
    (∃ t u,
      t.content = u.content ∧ c.next symbols = .ok t c.read.2 ∧ d.next symbols = .ok u d.read.2) ∨
    ∃ halt, c.next symbols = .error halt c.read.2 ∧ d.next symbols = .error halt d.read.2 := by
  unfold contents ahead at h
  unfold next
  generalize c.read = first at h ⊢
  generalize d.read = second at h ⊢
  obtain ⟨outcome, behind⟩ := first
  obtain ⟨outcome', behind'⟩ := second
  cases outcome with
  | error e =>
    cases outcome' with
    | error e' =>
      obtain rfl : e = e' := by simpa [Except.map] using h
      exact Or.inr ⟨_, rfl, rfl⟩
    | ok u => simp [Except.map] at h
  | ok t =>
    cases outcome' with
    | error e' => simp [Except.map] at h
    | ok u =>
      have hcontent : t.content = u.content := by simpa [Except.map] using h
      have hkind : t.kind = u.kind := congrArg Prod.fst hcontent
      have hlexeme : t.lexeme = u.lexeme := congrArg Prod.snd hcontent
      dsimp only
      rw [← hkind, ← hlexeme]
      by_cases hword : t.kind = .identifier
      · rw [if_pos hword, if_pos hword]
        cases symbols.keyword? t.lexeme with
        | error fault => exact Or.inr ⟨_, rfl, rfl⟩
        | ok word => exact Or.inl ⟨_, _, Token.content_reserve hcontent word, rfl, rfl⟩
      · rw [if_neg hword, if_neg hword]
        exact Or.inl ⟨t, u, hcontent, rfl, rfl⟩

end Cursor

namespace Compilation

/--
The same state at another place: the tokens to come, the current one included, are the same up to
their places.
-/
def Relaid (s t : State) : Prop :=
  ∃ cursor token, token.content = s.token.content ∧ (∀ k, s.cursor.contents k = cursor.contents k) ∧
    t = { s with cursor, token }

variable {s t : State}

theorem Relaid.take (h : Relaid s t) :
    Alike Relaid (fun _ => False) (Request.takeToken s) (Request.takeToken t) := by
  obtain ⟨cursor, token, htoken, hahead, rfl⟩ := h
  have hbehind : ∀ k, s.cursor.read.2.contents k = cursor.read.2.contents k :=
    fun k => hahead (k + 1)
  unfold Request.takeToken
  obtain ⟨found, found', hfound, hnext, hnext'⟩ | ⟨halt, hnext, hnext'⟩ :=
    Cursor.next_of_contents (hahead 0) s.symbols
  · simp only [hnext, hnext']
    exact .ok ⟨_, found', hfound.symm, hbehind, rfl⟩
  · simp only [hnext, hnext']
    cases halt with
    | malformed e => exact .error ⟨_, token, htoken, hbehind, rfl⟩
    | fault f => exact .error ⟨_, token, htoken, hbehind, rfl⟩

theorem relaid_eq_moved :
    Relaid =
      Moved fun c token c' token' => token'.content = token.content ∧
        ∀ k, c.contents k = c'.contents k := by
  funext s t
  simp only [Relaid, Moved, and_assoc]

/-- No request tells the two layouts apart. -/
theorem lockstep_relaid : Lockstep Relaid fun _ => False := by
  have htake : AlikeWithin (fun _ => True) Relaid
      (fun _ => False) Request.takeToken Request.takeToken :=
    ⟨fun _ _ => trivial, fun h _ => h.take⟩
  rw [relaid_eq_moved] at htake ⊢
  exact (lockstepWithin_moved htake fun h => ⟨(congrArg Prod.fst h.1).symm,
    (congrArg Prod.snd h.1).symm⟩).lockstep

/-- Both sources fail at the first token in the same way, or are alike from there on. -/
theorem start_relaid
    {source source' : String}
    (h : ∀ k, (Cursor.ofText source).contents k = (Cursor.ofText source').contents k)
    (limits : Limits) :
    (∃ s t, State.start source limits = .ok s ∧ State.start source' limits = .ok t ∧ Relaid s t) ∨
    ∃ halt, State.start source limits = .error halt ∧ State.start source' limits = .error halt := by
  unfold State.start
  cases (SymbolTable.empty limits).seed with
  | error e symbols => exact Or.inr ⟨_, rfl, rfl⟩
  | ok a symbols =>
    dsimp only
    obtain ⟨t, t', hcontent, hnext, hnext'⟩ | ⟨halt, hnext, hnext'⟩ :=
      Cursor.next_of_contents (h 0) symbols
    · rw [hnext, hnext']
      exact Or.inl ⟨_, _, rfl, rfl, _, t', hcontent.symm, fun k => h (k + 1), rfl⟩
    · rw [hnext, hnext']
      cases halt with
      | malformed e => exact Or.inr ⟨_, rfl, rfl⟩
      | fault f => exact Or.inr ⟨_, rfl, rfl⟩

end Compilation

open Compilation in
/--
Two sources with the same tokens, places apart, are compiled to the same texts, or both fail for the
same reason.
-/
theorem compile_eq_of_same_tokens
    {source source' : String}
    {tokens tokens' : List Token}
    (htokens : tokensOf source = .ok tokens)
    (htokens' : tokensOf source' = .ok tokens')
    (hsame : tokens.map Token.content = tokens'.map Token.content)
    (name header : String)
    (limits : Limits) :
    (∃ units,
      compile name source header limits = .ok units ∧
      compile name source' header limits = .ok units) ∨
    ∃ line line' halt,
      compile name source header limits = .error ⟨name, line, halt⟩ ∧
      compile name source' header limits = .error ⟨name, line', halt⟩ := by
  unfold compile
  obtain ⟨s, t, hs, ht, hst⟩ | ⟨halt, hs, ht⟩ :=
    start_relaid (Cursor.contents_eq_of_tokens htokens htokens' hsame) limits
  · rw [hs, ht]
    dsimp only
    obtain ⟨u, v, hu, hv, cursor, token, -, -, rfl⟩ | ⟨diagnostic, u, v, hu, hv, -⟩ | ⟨_, _, -,
        hfalse⟩ :=
      lockstep_relaid.compiled hs ht hst
    · rw [hu, hv]
      exact Or.inl ⟨_, rfl, rfl⟩
    · rw [hu, hv]
      exact Or.inr ⟨_, _, _, rfl, rfl⟩
    · exact hfalse.elim
  · rw [hs, ht]
    exact Or.inr ⟨_, _, _, rfl, rfl⟩

/-- A name that is not declared is told from the same tokens on one line and on three. -/
theorem compile_eq_of_two_layouts :
    ((tokensOf "MODULE M;BEGIN x END M.").toOption.map (List.map Token.content)).isSome = true ∧
    ((tokensOf "MODULE M;BEGIN x END M.").toOption.map (List.map Token.content) =
      (tokensOf "MODULE M (* a *);\nBEGIN\n x END M.").toOption.map (List.map Token.content)) ∧
    ((∃ units,
      compile "M" "MODULE M;BEGIN x END M." "M.h" {} = .ok units ∧
      compile "M" "MODULE M (* a *);\nBEGIN\n x END M." "M.h" {} = .ok units) ∨
      ∃ line line' halt,
        compile "M" "MODULE M;BEGIN x END M." "M.h" {} = .error ⟨"M", line, halt⟩ ∧
        compile "M" "MODULE M (* a *);\nBEGIN\n x END M." "M.h" {} =
          .error ⟨"M", line', halt⟩) := by
  have hsome :
      ((tokensOf "MODULE M;BEGIN x END M.").toOption.map (List.map Token.content)).isSome =
        true := by
    decide +kernel
  have hsame : (tokensOf "MODULE M;BEGIN x END M.").toOption.map (List.map Token.content) =
      (tokensOf "MODULE M (* a *);\nBEGIN\n x END M.").toOption.map (List.map Token.content) := by
    decide +kernel
  refine ⟨hsome, hsame, ?_⟩
  obtain ⟨contents, hcontents⟩ := Option.isSome_iff_exists.1 hsome
  have hcontents' := hsame.symm.trans hcontents
  obtain ⟨tokens, htokens, rfl⟩ := Option.map_eq_some_iff.1 hcontents
  obtain ⟨tokens', htokens', htokensSame⟩ := Option.map_eq_some_iff.1 hcontents'
  exact compile_eq_of_same_tokens (Grammar.toOption_eq_some_iff.1 htokens)
    (Grammar.toOption_eq_some_iff.1 htokens')
    htokensSame.symm "M" "M.h" {}

end Oberon
