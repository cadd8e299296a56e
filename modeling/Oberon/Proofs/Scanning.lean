import Oberon.Proofs.OrderlyModule

/-!
# Scanning on demand

A compilation asks for its tokens one by one and tells reserved words apart by its symbol table of
the moment.  Here the answers of the scanner during a run are recorded (`Action.scanned`) and
compared with those that it gives when the same text is scanned against the reserved words alone
(`Cursor.ahead`).

**Main statement.**  `scanned_eq_ahead`: both are the same, token by token and up to the malformed
token if there is one.
-/

namespace Oberon

/-! ### Answers of the scanner -/

namespace Cursor

/-- The answer of the scanner at a cursor: a token, or why there is none. -/
def answer (symbols : SymbolTable) (c : Cursor) : Except ScanHalt Token :=
  match c.next symbols with
  | .ok token _ => .ok token
  | .error halt _ => .error halt

/-- The cursor behind a number of further readings. -/
def ahead : Nat → Cursor → Cursor
  | 0, c => c
  | count + 1, c => ahead count c.read.2

/-- The scanner moves behind what it reads, whatever it makes of it. -/
theorem next_eq_answer (symbols : SymbolTable) (c : Cursor) :
    c.next symbols = match c.answer symbols with
      | .ok token => .ok token c.read.2
      | .error halt => .error halt c.read.2 := by
  unfold answer next
  obtain ⟨outcome, behind⟩ := c.read
  cases outcome with
  | error e => rfl
  | ok t =>
    dsimp only
    split
    · cases symbols.keyword? t.lexeme <;> rfl
    · rfl

end Cursor

/-- From one cursor to another the scanner gives the answers against the reserved words. -/
def Scans : Cursor → List (Except ScanHalt Token) → Cursor → Prop
  | c, [], d => d = c
  | c, answer :: answers, d => c.answer .reserved = answer ∧ Scans c.read.2 answers d

theorem Scans.append
    {c d e : Cursor}
    {answers others : List (Except ScanHalt Token)}
    (hfirst : Scans c answers d)
    (hsecond : Scans d others e) :
    Scans c (answers ++ others) e := by
  induction answers generalizing c with
  | nil =>
    obtain rfl : d = c := hfirst
    exact hsecond
  | cons answer answers ih => exact ⟨hfirst.1, ih hfirst.2⟩

theorem Scans.getElem?
    {c d : Cursor}
    {answers : List (Except ScanHalt Token)}
    (h : Scans c answers d)
    {k : Nat}
    {answer : Except ScanHalt Token}
    (hk : answers[k]? = some answer) :
    (c.ahead k).answer .reserved = answer := by
  induction answers generalizing c k with
  | nil => simp at hk
  | cons first answers ih =>
    cases k with
    | zero =>
      obtain rfl : first = answer := by simpa using hk
      exact h.1
    | succ k => exact ih h.2 hk

namespace Cursor

/--
The scanner's answer against the reserved words is what is read, with the words told apart by their
spelling.
-/
theorem answer_reserved (c : Cursor) :
    c.answer .reserved = match c.read.1 with
      | .error e => .error (.malformed e)
      | .ok t => .ok (t.classify Keyword.ofSpelling?) := by
  rw [answer, next_reserved]
  obtain ⟨outcome, behind⟩ := c.read
  cases outcome <;> rfl

/-- The tokens of a text are the answers at its cursors, one after the other. -/
theorem answer_of_tokens
    {c : Cursor}
    {tokens : List Token}
    (h : c.tokens Keyword.ofSpelling? = .ok tokens)
    {k : Nat}
    {t : Token}
    (hk : tokens[k]? = some t) :
    (c.ahead k).answer .reserved = .ok t := by
  induction tokens generalizing c k with
  | nil => simp at hk
  | cons first tokens ih =>
    have hread : ∃ token next, c.read = (.ok token, next) := by
      rw [Cursor.tokens] at h
      split at h
      · cases h
      · exact ⟨_, _, ‹_›⟩
    obtain ⟨token, next, hread⟩ := hread
    have hfirst : c.answer .reserved = .ok (token.classify Keyword.ofSpelling?) := by
      rw [answer_reserved, hread]
    rw [tokens_of_read _ hread] at h
    split at h
    · rename_i heof
      cases h
      have hclassify : first.classify Keyword.ofSpelling? = first := by simp [Token.classify, heof]
      obtain ⟨rfl, rfl⟩ : k = 0 ∧ first = t := by
        cases k with
        | zero => simpa using hk
        | succ k => simp at hk
      rw [ahead, hfirst, hclassify]
    · cases hothers : next.tokens Keyword.ofSpelling? with
      | error e => rw [hothers] at h; cases h
      | ok others =>
        rw [hothers] at h
        cases h
        cases k with
        | zero =>
          obtain rfl : token.classify Keyword.ofSpelling? = t := by simpa using hk
          exact hfirst
        | succ k =>
          rw [ahead, hread]
          exact ih hothers hk

/-- Behind the end of the source there is only the end of the source. -/
theorem answer_of_rest_nil {c : Cursor} (h : c.rest = []) :
    (∃ t, c.answer .reserved = .ok t) ∧ c.read.2.rest = [] := by
  have hbody : c.body = [] := by
    have hle := c.length_body_le
    rw [h, List.length_nil] at hle
    exact List.length_eq_zero_iff.1 (by omega)
  rw [answer_reserved, read_of_body_nil hbody]
  exact ⟨⟨_, rfl⟩, rfl⟩

end Cursor

theorem Scans.not_error_of_rest_nil
    {c d : Cursor}
    {answers : List (Except ScanHalt Token)}
    {halt : ScanHalt}
    (h : Scans c answers d)
    (hc : c.rest = []) :
    .error halt ∉ answers := by
  induction answers generalizing c with
  | nil => simp
  | cons answer answers ih =>
    obtain ⟨⟨t, ht⟩, hrest⟩ := Cursor.answer_of_rest_nil hc
    have hanswer := h.1
    rw [ht] at hanswer
    simp [← hanswer, ih h.2 hrest]

/-- A text with a malformed token that the scanner comes to has no list of tokens. -/
theorem Scans.tokens_eq_error
    {c d : Cursor}
    {answers : List (Except ScanHalt Token)}
    {e : ScanError}
    (h : Scans c (answers ++ [.error (.malformed e)]) d)
    (hanswers : ∀ answer ∈ answers, ∃ token, answer = .ok token) :
    c.tokens Keyword.ofSpelling? = .error e := by
  induction answers generalizing c with
  | nil =>
    have hfirst := h.1
    rw [Cursor.answer_reserved] at hfirst
    rw [Cursor.tokens]
    split
    · rename_i hread
      rw [hread] at hfirst
      cases hfirst
      rfl
    · rename_i hread
      rw [hread] at hfirst
      cases hfirst
  | cons answer answers ih =>
    obtain ⟨token, rfl⟩ := hanswers answer List.mem_cons_self
    obtain ⟨hfirst, hbehind⟩ := h
    rw [Cursor.answer_reserved] at hfirst
    cases hread : c.read with
    | mk outcome next =>
      rw [hread] at hfirst hbehind
      cases outcome with
      | error e => cases hfirst
      | ok t =>
        rw [Cursor.tokens_of_read _ hread, if_neg,
          ih hbehind fun answer hanswer => hanswers answer (List.mem_cons_of_mem _ hanswer)]
        · rfl
        · intro heof
          exact hbehind.not_error_of_rest_nil (Cursor.rest_eq_nil_of_read hread heof)
            (List.mem_append_right _ List.mem_cons_self)

namespace Compilation

open Oberon.Compilation.Action

/-! ### Recorded answers -/

variable {α β σ : Type}

/-- The scanner is asked when a token is taken. -/
def Request.scanned : {β : Type} → Request β → State → List (Except ScanHalt Token)
  | _, .take, s => [s.cursor.answer s.symbols]
  | _, _, _ => []

/-- The answers of the scanner while an action is performed. -/
def Action.scanned (action : Action α) (depth : Nat) (s : State) : List (Except ScanHalt Token) :=
  action.recorded Request.scanned (Rule.run depth) (Rule.recorded Request.scanned depth) s

/--
The answers of the scanner from the start of a compilation on, with the one that gave its first
token.
-/
def State.answers (start : State) (action : Action α) : List (Except ScanHalt Token) :=
  .ok start.token :: action.scanned (start.remaining + 1) start

/-! ### Comparison -/

/-- The table tells reserved words apart as the reserved words alone do. -/
def State.Agrees (s : State) : Prop :=
  ∀ c : Cursor, c.next s.symbols = c.next .reserved

/-- All answers are tokens. -/
def AllTokens (answers : List (Except ScanHalt Token)) : Prop :=
  ∀ answer ∈ answers, ∃ token, answer = .ok token

/-- The last answer is a malformed token exactly if the run halts for it, faults apart. -/
def EndsAs (answers : List (Except ScanHalt Token)) (halt : Halt) : Prop :=
  (AllTokens answers ∧ ∀ e, halt ≠ .rejected (.scan e)) ∨
  (∃ front e, AllTokens front ∧ answers = front ++ [.error (.malformed e)] ∧
    halt = .rejected (.scan e)) ∨
  ∃ fault, halt = .fault fault

/-- The answers lead from a cursor to the end of a run, against the reserved words alone. -/
def Follows (c : Cursor) (answers : List (Except ScanHalt Token)) :
    EStateM.Result Halt State α → Prop
  | .ok _ t => Scans c answers t.cursor ∧ AllTokens answers
  | .error halt t => Scans c answers t.cursor ∧ EndsAs answers halt

theorem AllTokens.append
    {answers others : List (Except ScanHalt Token)}
    (hfirst : AllTokens answers)
    (hsecond : AllTokens others) :
    AllTokens (answers ++ others) := by
  intro answer hanswer
  obtain h | h := List.mem_append.1 hanswer
  · exact hfirst answer h
  · exact hsecond answer h

theorem EndsAs.append
    {answers others : List (Except ScanHalt Token)}
    {halt : Halt}
    (hfirst : AllTokens answers)
    (hsecond : EndsAs others halt) :
    EndsAs (answers ++ others) halt := by
  obtain ⟨hothers, hhalt⟩ | ⟨front, e, hfront, rfl, rfl⟩ | hfault := hsecond
  · exact Or.inl ⟨hfirst.append hothers, hhalt⟩
  · exact Or.inr (Or.inl ⟨answers ++ front, e, hfirst.append hfront, by simp, rfl⟩)
  · exact Or.inr (Or.inr hfault)

theorem allTokens_nil : AllTokens [] := by
  simp [AllTokens]

theorem follows_halt {s : State} {halt : Halt} (h : ∀ e, halt ≠ .rejected (.scan e)) :
    Follows s.cursor [] (.error halt s : EStateM.Result Halt State α) :=
  ⟨rfl, Or.inl ⟨allTokens_nil, h⟩⟩

/-- What follows in two steps follows in one. -/
theorem Follows.bind
    {s : State}
    {answers : List (Except ScanHalt Token)}
    {x : Effect α}
    {f : α → Effect β}
    (hx : Follows s.cursor answers (x s))
    (record : α → State → List (Except ScanHalt Token))
    (hf : ∀ a t, x s = .ok a t → Follows t.cursor (record a t) (f a t)) :
    Follows s.cursor (answers ++ behind (x s) record) ((x >>= f) s) := by
  change Follows s.cursor _ (EStateM.bind x f s)
  unfold EStateM.bind
  cases hcase : x s with
  | error halt t =>
    rw [hcase] at hx
    rw [behind, List.append_nil]
    exact ⟨hx.1, hx.2⟩
  | ok a t =>
    rw [hcase] at hx
    have hrest := hf a t hcase
    simp only [behind]
    cases hend : f a t with
    | ok b u =>
      rw [hend] at hrest
      exact ⟨hx.1.append hrest.1, hx.2.append hrest.2⟩
    | error halt u =>
      rw [hend] at hrest
      exact ⟨hx.1.append hrest.1, hrest.2.append hx.2⟩

/-- Two steps without a token. -/
theorem Follows.quiet
    {s : State}
    {x : Effect α}
    {f : α → Effect β}
    (hx : Follows s.cursor [] (x s))
    (hf : ∀ a t, Follows t.cursor [] (f a t)) :
    Follows s.cursor [] ((x >>= f) s) := by
  have hboth := hx.bind (fun _ _ => []) fun a t _ => hf a t
  cases hcase : x s <;> simpa [hcase, behind] using hboth

theorem follows_take {s : State} (hs : s.Agrees) :
    Follows s.cursor [s.cursor.answer s.symbols] (Request.takeToken s) := by
  have hanswer : s.cursor.answer .reserved = s.cursor.answer s.symbols := by
    rw [Cursor.answer, Cursor.answer, hs]
  unfold Request.takeToken
  rw [Cursor.next_eq_answer]
  cases hcase : s.cursor.answer s.symbols with
  | ok token => exact ⟨⟨hanswer.trans hcase, rfl⟩, by simp [AllTokens]⟩
  | error halt =>
    cases halt with
    | malformed e =>
      exact ⟨⟨hanswer.trans hcase, rfl⟩, Or.inr (Or.inl ⟨[], e, allTokens_nil, rfl, rfl⟩)⟩
    | fault fault => exact ⟨⟨hanswer.trans hcase, rfl⟩, Or.inr (Or.inr ⟨fault, rfl⟩)⟩

theorem follows_ofTable (s : State) (answer : Except Fault α) :
    Follows s.cursor [] (Request.ofTable answer s) := by
  cases answer with
  | ok a => exact ⟨rfl, allTokens_nil⟩
  | error fault => exact follows_halt nofun

theorem follows_ofTypes (s : State) (answer : Except TypeError α) :
    Follows s.cursor [] (Request.ofTypes answer s) := by
  cases answer with
  | ok a => exact ⟨rfl, allTokens_nil⟩
  | error e => exact follows_halt nofun

theorem follows_changeSymbols (s : State) (change : SymbolTable → Except Fault SymbolTable) :
    Follows s.cursor [] (Request.changeSymbols change s) := by
  unfold Request.changeSymbols
  split
  · exact ⟨rfl, allTokens_nil⟩
  · exact follows_halt nofun

/-- A request is followed by the answers that are recorded for it. -/
theorem follows_perform {s : State} (hs : s.Agrees) (request : Request β) :
    Follows s.cursor (request.scanned s) (request.perform s) := by
  cases request with
  | take => exact follows_take hs
  | find name => exact follows_ofTable s _
  | symbol index => exact follows_ofTable s _
  | nameOf index => exact follows_ofTable s _
  | resolve index => exact follows_ofTable s _
  | requireCompatible a b => exact follows_ofTypes s _
  | element type => exact follows_ofTypes s _
  | setType index type => exact follows_changeSymbols s fun t => t.setType index type
  | setSignature index exported parameters result =>
    exact Follows.quiet (follows_changeSymbols s fun t => t.update index fun symbol =>
      { symbol with kind := .procedure exported parameters, type := result }) fun _ _ =>
        ⟨rfl, allTokens_nil⟩
  | declare name kind type =>
    change Follows s.cursor [] (Request.declareSymbol name kind type s)
    unfold Request.declareSymbol
    split
    · exact ⟨rfl, allTokens_nil⟩
    · exact follows_halt nofun
  | look => exact ⟨rfl, allTokens_nil⟩
  | write text => exact ⟨rfl, allTokens_nil⟩
  | publish text => exact ⟨rfl, allTokens_nil⟩
  | form type => exact ⟨rfl, allTokens_nil⟩
  | addType shape => exact ⟨rfl, allTokens_nil⟩
  | nameModule name => exact ⟨rfl, allTokens_nil⟩
  | moduleName => exact ⟨rfl, allTokens_nil⟩
  | scope => exact ⟨rfl, allTokens_nil⟩

theorem follows_captured
    {s : State} {answers : List (Except ScanHalt Token)} {effect : Effect α}
    (h : Follows s.cursor answers (effect { s with output := s.output.openCapture })) :
    Follows s.cursor answers (captured effect s) := by
  unfold captured
  cases hcase : effect { s with output := s.output.openCapture } with
  | ok a t =>
    rw [hcase] at h
    exact h
  | error halt t =>
    rw [hcase] at h
    exact h

/-- A procedure scope is left without another token. -/
theorem follows_enclosed
    {s : State} {answers : List (Except ScanHalt Token)} {effect : Effect α}
    (h : Follows s.cursor answers
      (effect s.entered)) :
    Follows s.cursor answers (enclosed effect s) := by
  unfold enclosed leave
  cases hcase : effect s.entered with
  | ok a t =>
    rw [hcase] at h
    dsimp only
    cases t.symbols.release s.symbols.mark with
    | ok _ symbols => exact h
    | error fault symbols => exact ⟨h.1, Or.inr (Or.inr ⟨fault, rfl⟩)⟩
  | error halt t =>
    rw [hcase] at h
    dsimp only
    cases t.symbols.release s.symbols.mark with
    | ok _ symbols => exact h
    | error fault symbols => exact ⟨h.1, Or.inr (Or.inr ⟨fault, rfl⟩)⟩

theorem follows_iterate
    {turn : σ → Effect (σ ⊕ β)}
    {record : σ → State → List (Except ScanHalt Token)}
    (good : σ → State → Prop)
    (hturn : ∀ x s, good x s → Follows s.cursor (record x s) (turn x s))
    (hgood : ∀ x y s t, good x s → turn x s = .ok (.inl y) t → good y t)
    (count : Nat)
    (x : σ)
    (s : State)
    (hs : good x s) :
    Follows s.cursor (recordedTurns turn record count x s) (iterate turn count x s) := by
  induction count generalizing x s with
  | zero => exact follows_halt nofun
  | succ count ih =>
    refine (hturn x s hs).bind _ fun next t hnext => ?_
    cases next with
    | inl y => exact ih y t (hgood x y s t hs hnext)
    | inr b => exact ⟨rfl, allTokens_nil⟩

/--
Where all moments of a run agree with the reserved words alone, so do the answers of the scanner, if
they do for the rules.
-/
theorem follows_of_rules
    {depth : Nat}
    (hrules : ∀ {β : Type} (rule : Rule β) (s : State),
      (∀ moment u, (call rule done).Comes depth s moment u → u.Agrees) →
      Follows s.cursor (Rule.recorded Request.scanned depth rule s) (Rule.run depth rule s))
    (action : Action α)
    (haction : action.AsksOnly everything)
    (s : State)
    (hs : ∀ moment u, action.Comes depth s moment u → u.Agrees) :
    Follows s.cursor (action.scanned depth s) (action.run (Rule.run depth) s) := by
  induction action generalizing s with
  | done a => exact ⟨rfl, allTokens_nil⟩
  | reject diagnostic => exact follows_halt fun e heq => haction.ne_scan e (Halt.rejected.inj heq)
  | ask request next ih =>
    refine (follows_perform (hs _ _ (.here _ s)) request).bind _ fun b t hb => ?_
    exact ih b (haction.2 b) t fun moment u hu => hs moment u (.ask hb hu)
  | capture body next hbody ih =>
    refine (follows_captured (hbody haction.1 _ fun moment u hu => hs moment u (.captured hu))).bind
      _ fun b t hb => ?_
    have hgives : (textOf body).Gives depth s b t := (Effect.bind_eq_ok_iff ..).2 ⟨b, t, hb, rfl⟩
    exact ih b (haction.2 b) t fun moment u hu => hs moment u (.pastCapture hgives hu)
  | inProcedure body next hbody ih =>
    refine (follows_enclosed (hbody haction.2.1 _
      fun moment u hu => hs moment u (.enclosed hu))).bind _ fun b t hb => ?_
    have hgives : (inProcedure body done).Gives depth s b t :=
      (Effect.bind_eq_ok_iff ..).2 ⟨b, t, hb, rfl⟩
    exact ih b (haction.2.2 b) t fun moment u hu => hs moment u (.pastProcedure hgives hu)
  | loop turn start next hturn ih =>
    have hturns := follows_iterate (fun x t => Iterates depth turn start s x t)
      (fun x t ht => hturn x (haction.1 x) t fun moment u hu => hs moment u (.turn ht hu))
      (fun x y t u ht hnext => ht.snoc hnext) (s.remaining + 1) start s (.refl start s)
    refine hturns.bind _ fun b t hb => ?_
    have hgives : (turns turn start).Gives depth s b t :=
      (Effect.bind_eq_ok_iff ..).2 ⟨b, t, hb, rfl⟩
    exact ih b (haction.2 b) t fun moment u hu => hs moment u (.pastLoop hgives hu)
  | call rule next ih =>
    have hrule : Follows s.cursor (Rule.recorded Request.scanned depth rule s)
        (Rule.run depth rule s) := by
      refine hrules rule s fun moment u hu => ?_
      cases hu with
      | here => exact hs _ _ (.here _ s)
      | rule hu => exact hs _ _ (.rule hu)
      | pastRule hgives hu =>
        cases hu
        exact hs _ _ (.pastRule hgives (.here _ _))
    refine hrule.bind _ fun b t hb => ?_
    have hgives : (call rule done).Gives depth s b t := (Effect.bind_eq_ok_iff ..).2 ⟨b, t, hb, rfl⟩
    exact ih b (haction b) t fun moment u hu => hs moment u (.pastRule hgives hu)

/--
Where all moments of a run agree with the reserved words alone, so do the answers of the scanner.
-/
theorem follows_run
    (depth : Nat) (action : Action α) [haction : Uses everything action] (s : State)
    (hs : ∀ moment u, action.Comes depth s moment u → u.Agrees) :
    Follows s.cursor (action.scanned depth s) (action.run (Rule.run depth) s) := by
  induction depth generalizing α s with
  | zero =>
    refine follows_of_rules (fun rule s _ => ?_) action haction.asksOnly s hs
    exact show Follows s.cursor [] (.error .exhausted s) from follows_halt nofun
  | succ depth ih =>
    refine follows_of_rules (fun rule s hrule => ?_) action haction.asksOnly s hs
    exact ih rule.action s fun moment u hu => hrule moment u (.rule hu)

/-! ### Reserved words in every state -/

end Compilation

/--
The first entries are the reserved words in their order, and no later entry has the spelling of one.
-/
structure SymbolTable.Reserves (t : SymbolTable) : Prop where
  first : ∀ index word, Keyword.all[index]? = some word →
    t.name index = .ok word.spelling ∧ ∃ symbol, t.get index = .ok symbol ∧
      symbol.kind = .reserved word
  later : ∀ index, Keyword.all.length ≤ index → index < t.size →
    ∃ name, t.name index = .ok name ∧ ∀ word : Keyword, name ≠ word.spelling

namespace Compilation

theorem State.Scoped.reserves
    {s : State}
    {owner : Scope.Owner}
    {outer inner : List (String × Symbol.Kind)}
    (h : s.Scoped owner outer inner) :
    s.symbols.Reserves := by
  obtain ⟨declared, locals, heq, hdeclared, hlocals⟩ := h.encloses.layers h.declared
  have hsymbols := h.symbols
  rw [heq] at hsymbols
  constructor
  · intro index word hword
    have hindex : (reservedEntries ++ (declared ++ locals))[index]? =
        some (word.spelling, .reserved word) := by
      have hentry : reservedEntries[index]? = some (word.spelling, .reserved word) := by
        rw [reservedEntries, List.getElem?_map, hword]
        rfl
      rw [List.getElem?_append_left (List.getElem?_eq_some_iff.1 hentry).1, hentry]
    obtain ⟨symbol, hget, hkind⟩ := hsymbols.exists_get hindex
    refine ⟨hsymbols.name_eq hindex, symbol, hget, ?_⟩
    cases hcase : symbol.kind <;> rw [hcase] at hkind <;> cases hkind
    rfl
  · intro index hlow hhigh
    rw [hsymbols.size_eq] at hhigh
    obtain ⟨⟨name, kind⟩, hindex⟩ : ∃ entry, (reservedEntries ++ (declared ++ locals))[index]? =
        some entry :=
      ⟨_, List.getElem?_eq_getElem hhigh⟩
    refine ⟨name, hsymbols.name_eq hindex, ?_⟩
    have hreserved : reservedEntries.length ≤ index := hlow
    rw [List.getElem?_append_right hreserved] at hindex
    have hname : Keyword.ofSpelling? name = none := by
      obtain hmem | hmem := List.mem_append.1 (List.mem_of_getElem? hindex)
      · exact hdeclared.ofSpelling?_eq_none _ hmem
      · exact hlocals.ofSpelling?_eq_none _ hmem
    rintro word rfl
    rw [Keyword.ofSpelling?_spelling] at hname
    cases hname

theorem State.Orderly.reserves {s : State} (h : s.Orderly) : s.symbols.Reserves := by
  obtain ⟨owner, outer, inner, hs⟩ := h
  exact hs.reserves

theorem State.Orderly.agrees {s : State} (h : s.Orderly) : s.Agrees := by
  obtain ⟨owner, outer, inner, hs⟩ := h
  exact hs.next_eq

/--
A compilation starts at the first token of its source, or does not start for want of room or of a
first token.
-/
theorem start_cases (source : String) (limits : Limits) :
    match State.start source limits with
    | .ok s => (Cursor.ofText source).next .reserved = .ok s.token s.cursor
    | .error halt => (∃ e, halt = .rejected (.limit e)) ∨
        ∃ e, halt = .rejected (.scan e) ∧
          (Cursor.ofText source).answer .reserved = .error (.malformed e) := by
  unfold State.start
  cases hseed : (SymbolTable.empty limits).seed with
  | error e symbols => exact Or.inl ⟨e, rfl⟩
  | ok a symbols =>
    have hshows : symbols.Shows Symbol.Kind.bare (reservedEntries ++ []) := by
      simpa using SymbolTable.Shows.seed (fun _ => rfl) hseed
    dsimp only
    rw [hshows.next_eq (by simp)]
    cases hnext : (Cursor.ofText source).next .reserved with
    | ok token cursor => rfl
    | error halt cursor =>
      cases halt with
      | malformed e => exact Or.inr ⟨e, rfl, by rw [Cursor.answer, hnext]⟩
      | fault fault => exact absurd hnext Cursor.next_reserved_ne_fault

theorem AllTokens.getLast?_ne
    {answers : List (Except ScanHalt Token)} (h : AllTokens answers) (halt : ScanHalt) :
    answers.getLast? ≠ some (.error halt) := by
  intro hlast
  obtain ⟨token, htoken⟩ := h _ (List.mem_of_getLast? hlast)
  cases htoken

theorem Follows.scans
    {c : Cursor}
    {answers : List (Except ScanHalt Token)}
    {result : EStateM.Result Halt State α}
    (h : Follows c answers result) :
    Scans c answers (endState result).cursor := by
  cases result with
  | ok a t => exact h.1
  | error halt t => exact h.1

/-- The token in front of a run is an answer as well. -/
theorem Follows.cons
    {c d : Cursor}
    {token : Token}
    {answers : List (Except ScanHalt Token)}
    {result : EStateM.Result Halt State α}
    (hnext : c.next .reserved = .ok token d)
    (h : Follows d answers result) :
    Follows c (.ok token :: answers) result := by
  have hfirst : Scans c [.ok token] d := by
    have hanswer : c.answer .reserved = .ok token := by rw [Cursor.answer, hnext]
    rw [Cursor.next_eq_answer, hanswer] at hnext
    cases hnext
    exact ⟨hanswer, rfl⟩
  have htoken : AllTokens [.ok token] := by simp [AllTokens]
  cases result with
  | ok a t => exact ⟨hfirst.append h.1, htoken.append h.2⟩
  | error halt t => exact ⟨hfirst.append h.1, h.2.append htoken⟩

/-- A run that halts for a malformed token has come to the first one. -/
theorem Follows.tokens_eq_error
    {c : Cursor} {answers : List (Except ScanHalt Token)} {e : ScanError} {t : State}
    (h : Follows c answers (.error (.rejected (.scan e)) t : EStateM.Result Halt State α)) :
    c.tokens Keyword.ofSpelling? = .error e := by
  obtain ⟨-, hhalt⟩ | ⟨front, e', hfront, rfl, heq⟩ | ⟨fault, heq⟩ := h.2
  · exact absurd rfl (hhalt e)
  · cases heq
    exact h.1.tokens_eq_error hfront
  · cases heq

/-- A run halts for a malformed token exactly if that is the last answer of the scanner. -/
theorem Follows.halts_iff
    {c : Cursor}
    {answers : List (Except ScanHalt Token)}
    {result : EStateM.Result Halt State α}
    (h : Follows c answers result)
    (hfault : ∀ fault t, result ≠ .error (.fault fault) t)
    (e : ScanError) :
    (∃ t, result = .error (.rejected (.scan e)) t) ↔
      answers.getLast? = some (.error (.malformed e)) := by
  cases result with
  | ok a t => simpa using h.2.getLast?_ne (.malformed e)
  | error halt t =>
    obtain ⟨hanswers, hhalt⟩ | ⟨front, e', -, rfl, rfl⟩ | ⟨fault, rfl⟩ := h.2
    · simp [hhalt, hanswers.getLast?_ne]
    · simp [eq_comm]
    · exact absurd rfl (hfault fault t)

end Compilation

open Compilation in
/--
While a module is compiled, the scanner gives the same tokens, one after the other, as when the
source is scanned against the reserved words alone, and the compilation halts for a malformed token
exactly if the scanner has come to it.  In every state on the way, in procedures and behind them,
the reserved words are the first entries of the table and no later entry has the spelling of one.
-/
theorem scanned_eq_ahead (source header : String) (limits : Limits) :
    match State.start source limits with
    | .error halt => (∃ e, halt = .rejected (.limit e)) ∨
        ∃ e, halt = .rejected (.scan e) ∧
          (Cursor.ofText source).answer .reserved = .error (.malformed e)
    | .ok start =>
      (∀ k answer, (start.answers (wholeModule header))[k]? = some answer →
        answer = ((Cursor.ofText source).ahead k).answer .reserved) ∧
      (∀ tokens, tokensOf source = .ok tokens → ∀ k token, tokens[k]? = some token →
        ((Cursor.ofText source).ahead k).answer .reserved = .ok token) ∧
      (∀ e, (∃ t, (wholeModule header).perform start = .error (.rejected (.scan e)) t) ↔
        (start.answers (wholeModule header)).getLast? = some (.error (.malformed e))) ∧
      (∀ e t, (wholeModule header).perform start = .error (.rejected (.scan e)) t →
        tokensOf source = .error e) ∧
      (∀ moment u, (wholeModule header).Comes (start.remaining + 1) start moment u →
        u.symbols.Reserves ∧ ∀ c : Cursor, c.next u.symbols = c.next .reserved) ∧
      (endState ((wholeModule header).perform start)).symbols.Reserves := by
  have hcases := start_cases source limits
  cases hstart : State.start source limits with
  | error halt =>
    rw [hstart] at hcases
    exact hcases
  | ok start =>
    rw [hstart] at hcases
    have hscoped := (start_spec hstart).1
    have hhonors := @honors_wholeModule reservedEntries (start.remaining + 1) header
    have hmoments : ∀ moment u,
        (wholeModule header).Comes (start.remaining + 1) start moment u → u.Orderly :=
      fun moment u hu => (hhonors.comes hscoped hu).1
    have hfollows : Follows (Cursor.ofText source) (start.answers (wholeModule header))
        ((wholeModule header).perform start) :=
      .cons hcases (follows_run _ _ start fun moment u hu => (hmoments moment u hu).agrees)
    have hfault : ∀ fault t, (wholeModule header).perform start ≠ .error (.fault fault) t :=
      fun fault t hhalts => (hhonors.halts hscoped hhalts).2 fault rfl
    refine ⟨fun k answer hk => (hfollows.scans.getElem? hk).symm, fun tokens htokens k token hk =>
      Cursor.answer_of_tokens htokens hk, hfollows.halts_iff hfault, fun e t hhalts => ?_,
        fun moment u hu =>
      ⟨(hmoments moment u hu).reserves, (hmoments moment u hu).agrees⟩, ?_⟩
    · rw [hhalts] at hfollows
      exact hfollows.tokens_eq_error
    · obtain ⟨inner, hend⟩ := inside_endState hhonors hscoped
      exact hend.reserves

end Oberon
