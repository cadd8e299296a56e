import Oberon.Proofs.OrderlyModule

/-!
# Traces

A trace is what a run leaves behind: the tokens that it takes, the texts that it writes to the two
units, the names that it declares and the modules that it finds by their names.  `s.Leaves trace t`
says that this is all that happens between two states, up to types and the result type of the scope.
Traces are joined as runs are (`Leaves.trans`).
-/

namespace Oberon

/-- Where a source is looked at from: the current token and what stands behind it. -/
abbrev Vantage := Cursor × Token

/-- The tokens between two vantages are `words`. -/
def Reads : Vantage → List Word → Vantage → Prop
  | p, [], q => q = p
  | p, word :: words, q =>
      p.2.word = word ∧
        ∃ (token : Token) (cursor : Cursor), p.1.next .reserved = .ok token cursor ∧
          Reads (cursor, token) words q

theorem Reads.append
    {p q r : Vantage}
    {words others : List Word}
    (hfirst : Reads p words q)
    (hsecond : Reads q others r) :
    Reads p (words ++ others) r := by
  induction words generalizing p with
  | nil =>
    obtain rfl : q = p := hfirst
    exact hsecond
  | cons word words ih =>
    obtain ⟨hword, token, cursor, hnext, hrest⟩ := hfirst
    exact ⟨hword, token, cursor, hnext, ih hrest⟩

/-- Behind the end of the source there is only the end of the source. -/
theorem Reads.eq_eof_of_rest_nil
    {p q : Vantage}
    {words : List Word}
    (h : Reads p words q)
    (hend : p.2.kind = .eof)
    (hrest : p.1.rest = []) :
    ∀ word ∈ words, word.1 = .eof := by
  induction words generalizing p with
  | nil => simp
  | cons word words ih =>
    obtain ⟨hword, token, cursor, hnext, hreads⟩ := h
    have hbody : p.1.body = [] := by
      have hle := p.1.length_body_le
      rw [hrest, List.length_nil] at hle
      exact List.length_eq_zero_iff.1 (by omega)
    rw [Cursor.next_reserved, Cursor.read_of_body_nil hbody] at hnext
    cases hnext
    intro other hother
    obtain rfl | hother := List.mem_cons.1 hother
    · rw [← hword, Token.word_fst, hend]
    · exact ih hreads rfl rfl other hother

/-- Words that are read up to the end of a source are its tokens. -/
theorem Reads.exists_tokens
    {c cursor : Cursor}
    {token : Token}
    {words : List Word}
    {q : Vantage}
    (hnext : c.next .reserved = .ok token cursor)
    (h : Reads (cursor, token) (words ++ [.eof]) q)
    (hlast : ∀ word ∈ words.getLast?, word.1 ≠ .eof) :
    ∃ tokens,
      c.tokens Keyword.ofSpelling? = .ok tokens ∧ tokens.map Token.word = words ++ [.eof] := by
  induction words generalizing c cursor token with
  | nil =>
    obtain ⟨t, hread, rfl⟩ := Cursor.exists_read_of_next_reserved hnext
    have hend : t.kind = .eof := (t.kind_classify_eq_eof_iff).1 ((Token.word_eq_eof_iff _).1 h.1)
    exact ⟨[t], by rw [Cursor.tokens_of_read _ hread, if_pos hend], by simpa using hend⟩
  | cons word words ih =>
    obtain ⟨t, hread, rfl⟩ := Cursor.exists_read_of_next_reserved hnext
    have hend : t.kind ≠ .eof := by
      intro hend
      have hall :=
        h.eq_eof_of_rest_nil ((t.kind_classify_eq_eof_iff).2 hend)
          (Cursor.rest_eq_nil_of_read hread hend)
      obtain ⟨last, hmem⟩ :=
        Option.isSome_iff_exists.1 (List.getLast?_isSome.2 (List.cons_ne_nil word words))
      exact hlast last hmem (hall last (List.mem_append_left _ (List.mem_of_getLast? hmem)))
    obtain ⟨hword, token, cursor', hnext', hrest⟩ := h
    obtain ⟨tokens, htokens, hwords⟩ := ih hnext' hrest fun other hother =>
      hlast other (by rw [List.getLast?_cons_of_ne_nil (by rintro rfl; cases hother)]; exact hother)
    refine ⟨t.classify Keyword.ofSpelling? :: tokens, ?_, by simp [hword, hwords]⟩
    rw [Cursor.tokens_of_read _ hread, if_neg hend, htokens]
    rfl

/--
A name stands for a module: under the module's own name, or as another name right behind the module.
-/
def Calls (outline : List (String × Symbol.Kind)) (called real : String) : Prop :=
  (real = called ∧ ((called, .imported) ∈ outline ∨ (called, .thisModule) ∈ outline)) ∨
    ∃ i, outline[i]? = some (real, .imported) ∧ outline[i + 1]? = some (called, .aliasOf 0)

theorem Calls.append_right
    {outline : List (String × Symbol.Kind)} {called real : String} (h : Calls outline called real)
    (more : List (String × Symbol.Kind)) : Calls (outline ++ more) called real := by
  obtain ⟨rfl, hown⟩ | ⟨i, hreal, hcalled⟩ := h
  · exact Or.inl ⟨rfl, hown.imp (List.mem_append_left _) (List.mem_append_left _)⟩
  · have hlt := (List.getElem?_eq_some_iff.1 hcalled).1
    refine Or.inr ⟨i, ?_, ?_⟩
    · rw [List.getElem?_append_left (by omega), hreal]
    · rw [List.getElem?_append_left hlt, hcalled]

/-- Where no modules are added, no name stands for another module. -/
theorem Calls.of_append
    {outline more : List (String × Symbol.Kind)}
    {called real : String}
    (h : Calls (outline ++ more) called real)
    (hmore : ∀ entry ∈ more, entry.2 ≠ .imported ∧ entry.2 ≠ .thisModule ∧ entry.2 ≠ .aliasOf 0) :
    Calls outline called real := by
  obtain ⟨rfl, hown⟩ | ⟨i, hreal, hcalled⟩ := h
  · refine Or.inl ⟨rfl, hown.imp (fun hmem => ?_) fun hmem => ?_⟩
    · exact (List.mem_append.1 hmem).resolve_right fun hmem => (hmore _ hmem).1 rfl
    · exact (List.mem_append.1 hmem).resolve_right fun hmem => (hmore _ hmem).2.1 rfl
  · have hlt : i + 1 < outline.length := by
      by_contra hge
      rw [List.getElem?_append_right (by omega)] at hcalled
      exact (hmore _ (List.mem_of_getElem? hcalled)).2.2 rfl
    rw [List.getElem?_append_left (by omega)] at hreal
    rw [List.getElem?_append_left hlt] at hcalled
    exact Or.inr ⟨i, hreal, hcalled⟩

/-- Steps one behind the other, each with what it goes by. -/
inductive Steps {σ ι : Type} (step : σ → ι → σ → Prop) : σ → List ι → σ → Prop
  | nil (s : σ) : Steps step s [] s
  | cons
      {s t u : σ}
      {x : ι}
      {xs : List ι}
      (hstep : step s x u)
      (hrest : Steps step u xs t) :
      Steps step s (x :: xs) t

namespace Steps

variable {σ τ ι : Type} {step : σ → ι → σ → Prop} {s t : σ} {xs : List ι}

theorem imp
    {other : σ → ι → σ → Prop}
    (h : Steps step s xs t)
    (himp : ∀ a x b, step a x b → other a x b) :
    Steps other s xs t := by
  induction h with
  | nil s => exact .nil s
  | cons hstep _ ih => exact .cons (himp _ _ _ hstep) ih

/-- Steps can be looked at from afar. -/
theorem map {other : τ → ι → τ → Prop} (f : σ → τ) (h : Steps step s xs t)
    (hf : ∀ a x b, step a x b → other (f a) x (f b)) : Steps other (f s) xs (f t) := by
  induction h with
  | nil s => exact .nil (f s)
  | cons hstep _ ih => exact .cons (hf _ _ _ hstep) ih

/-- Steps can be taken apart at any of them. -/
theorem split {x : ι} {ys : List ι} (h : Steps step s (xs ++ x :: ys) t) :
    ∃ u v, Steps step s xs u ∧ step u x v ∧ Steps step v ys t := by
  induction xs generalizing s with
  | nil =>
    cases h with
    | cons hstep hrest => exact ⟨_, _, .nil _, hstep, hrest⟩
  | cons y xs ih =>
    cases h with
    | cons hfirst hrest =>
      obtain ⟨u, v, hbefore, hstep, hafter⟩ := ih hrest
      exact ⟨u, v, .cons hfirst hbefore, hstep, hafter⟩

/-- What each step keeps is kept. -/
theorem keeps
    {f : σ → τ} (h : Steps step s xs t) (hf : ∀ a x b, step a x b → f b = f a) :
    f t = f s := by
  induction h with
  | nil => rfl
  | cons hstep _ ih => exact ih.trans (hf _ _ _ hstep)

end Steps

/-- What a run takes, writes, declares and finds. -/
@[ext]
structure Trace where
  words : List Word := []
  /-- The text for the implementation. -/
  code : String := ""
  /-- The text for the interface. -/
  published : String := ""
  added : List (String × Symbol.Kind) := []
  /-- The modules that were found, each behind the name that it was found by. -/
  named : List (String × String) := []

@[simp] theorem join_replicate_empty (count : Nat) :
    String.join (List.replicate count "") = "" := by
  induction count with
  | zero => simp
  | succ count ih => simp [List.replicate_succ, ih]

namespace Trace

/-- One trace behind another. -/
instance : Append Trace where
  append a b := ⟨a.words ++ b.words, a.code ++ b.code, a.published ++ b.published,
    a.added ++ b.added, a.named ++ b.named⟩

@[simp] theorem words_append (a b : Trace) : (a ++ b).words = a.words ++ b.words := rfl

@[simp] theorem code_append (a b : Trace) : (a ++ b).code = a.code ++ b.code := rfl

@[simp] theorem published_append (a b : Trace) :
    (a ++ b).published = a.published ++ b.published :=
  rfl

@[simp] theorem added_append (a b : Trace) : (a ++ b).added = a.added ++ b.added := rfl

@[simp] theorem named_append (a b : Trace) : (a ++ b).named = a.named ++ b.named := rfl

/-- The trace of a run whose names are given up at its end. -/
def released (a : Trace) : Trace := { a with added := [] }

/-- Traces one behind the other. -/
def join (traces : List Trace) : Trace := traces.foldr (· ++ ·) {}

@[simp] theorem join_nil : join [] = {} := rfl

@[simp] theorem join_cons (a : Trace) (traces : List Trace) :
    join (a :: traces) = a ++ join traces :=
  rfl

theorem join_map
    {ι : Type}
    (words : ι → List Word)
    (code published : ι → String)
    (added : ι → List (String × Symbol.Kind))
    (named : ι → List (String × String))
    (xs : List ι) :
    join (xs.map fun x => ⟨words x, code x, published x, added x, named x⟩) =
      ⟨xs.flatMap words, String.join (xs.map code), String.join (xs.map published),
        xs.flatMap added, xs.flatMap named⟩ := by
  induction xs with
  | nil => rfl
  | cons x xs ih => simp [ih, Trace.ext_iff]

/-- Traces behind a word each. -/
theorem join_separated {ι : Type} (word : Word) (trace : ι → Trace) (xs : List ι) :
    join (xs.map fun x => { words := [word] } ++ trace x) = {
      words := xs.flatMap fun x => word :: (trace x).words
      code := String.join (xs.map fun x => (trace x).code)
      published := String.join (xs.map fun x => (trace x).published)
      added := xs.flatMap fun x => (trace x).added
      named := xs.flatMap fun x => (trace x).named } := by
  induction xs with
  | nil => rfl
  | cons x xs ih => simp [ih, Trace.ext_iff]

theorem append_assoc (a b c : Trace) : a ++ b ++ c = a ++ (b ++ c) := by
  simp [Trace.ext_iff, String.append_assoc]

end Trace

namespace Output

theorem write_publish (o : Output) (text line : String) :
    (o.publish line).write text = (o.write text).publish line := by
  obtain ⟨units, captures⟩ := o
  cases captures <;> rfl

theorem write_write (o : Output) (first second : String) :
    (o.write first).write second = o.write (first ++ second) := by
  obtain ⟨units, captures⟩ := o
  cases captures <;> simp [write, String.append_assoc]

theorem publish_publish (o : Output) (first second : String) :
    (o.publish first).publish second = o.publish (first ++ second) := by
  simp [publish, String.append_assoc]

@[simp] theorem write_empty (o : Output) : o.write "" = o := by
  obtain ⟨units, captures⟩ := o
  cases captures <;> simp [write]

@[simp] theorem publish_empty (o : Output) : o.publish "" = o := by
  simp [publish]

end Output

namespace Compilation

def State.vantage (s : State) : Vantage := (s.cursor, s.token)

/-- Between `s` and `t` a run has left the trace and changed nothing else but types. -/
structure State.Leaves (s : State) (trace : Trace) (t : State) : Prop where
  output : t.output = (s.output.write trace.code).publish trace.published
  moduleName : t.moduleName = s.moduleName
  reads : s.Orderly → Reads s.vantage trace.words t.vantage
  inScope : ∀ {owner : Scope.Owner} {outer inner : List (String × Symbol.Kind)},
    s.Scoped owner outer inner →
    ∃ more, more.map outlined = trace.added ∧ t.Scoped owner outer (inner ++ more)
  named : s.Orderly → ∀ p ∈ trace.named, Calls t.symbols.outline p.1 p.2

namespace State.Leaves

variable {s t u : State} {a b : Trace}

theorem orderly (h : s.Leaves a t) (hs : s.Orderly) : t.Orderly := by
  obtain ⟨owner, outer, inner, hs⟩ := hs
  obtain ⟨more, -, ht⟩ := h.inScope hs
  exact ⟨owner, outer, _, ht⟩

theorem outline_eq (h : s.Leaves a t) (hs : s.Orderly) :
    t.symbols.outline = s.symbols.outline ++ a.added := by
  obtain ⟨owner, outer, inner, hs⟩ := hs
  obtain ⟨more, hmore, ht⟩ := h.inScope hs
  rw [ht.symbols.outline_eq, hs.symbols.outline_eq, ← hmore, ← List.map_append, List.append_assoc]

theorem trans (hfirst : s.Leaves a u) (hsecond : u.Leaves b t) : s.Leaves (a ++ b) t where
  output := by
    rw [hsecond.output, hfirst.output, Output.write_publish, Output.publish_publish,
      Output.write_write]
    rfl
  moduleName := hsecond.moduleName.trans hfirst.moduleName
  reads hs := (hfirst.reads hs).append (hsecond.reads (hfirst.orderly hs))
  inScope hs := by
    obtain ⟨more, hmore, hu⟩ := hfirst.inScope hs
    obtain ⟨others, hothers, ht⟩ := hsecond.inScope hu
    exact ⟨more ++ others, by simp [hmore, hothers], by rwa [← List.append_assoc]⟩
  named hs p hp := by
    have hu := hfirst.orderly hs
    obtain hp | hp := List.mem_append.1 hp
    · rw [hsecond.outline_eq hu]
      exact (hfirst.named hs p hp).append_right _
    · exact hsecond.named hu p hp

theorem of_eq (h : s.Leaves a t) (heq : a = b) : s.Leaves b t := heq ▸ h

/-- Where no token is taken and no name is declared. -/
theorem of_kept
    {code published : String}
    (houtput : t.output = (s.output.write code).publish published)
    (hmodule : t.moduleName = s.moduleName)
    (hvantage : t.vantage = s.vantage)
    (h : ∀ {owner : Scope.Owner} {outer inner : List (String × Symbol.Kind)},
      s.Scoped owner outer inner → t.Scoped owner outer inner) :
    s.Leaves { code, published } t :=
  ⟨houtput, hmodule, fun _ => hvantage, fun hs => ⟨[], rfl, by rw [List.append_nil]; exact h hs⟩,
    by simp⟩

theorem refl (s : State) : s.Leaves {} s :=
  .of_kept (by simp) rfl rfl fun hs => hs

/-- A change to the symbol table alone. -/
theorem of_symbols
    {symbols : SymbolTable}
    {added : List (String × Symbol.Kind)}
    (h : ∀ {owner : Scope.Owner} {outer inner : List (String × Symbol.Kind)},
      s.Scoped owner outer inner →
      ∃ more,
        more.map outlined = added ∧ State.Scoped { s with symbols } owner outer (inner ++ more)) :
    s.Leaves { added } { s with symbols } :=
  ⟨by simp, rfl, fun _ => rfl, h, by simp⟩

theorem remaining_le (h : s.Leaves a t) (hs : s.Orderly) : t.remaining ≤ s.remaining := by
  have hreads := h.reads hs
  generalize a.words = words at hreads
  clear h hs
  induction words generalizing s with
  | nil =>
    obtain ⟨hcursor, htoken⟩ := Prod.mk.inj hreads
    simp [State.remaining, hcursor, htoken]
  | cons word words ih =>
    obtain ⟨-, token, cursor, hnext, hrest⟩ := hreads
    have htake : Request.takeToken { s with symbols := .reserved } =
        .ok () { s with symbols := .reserved, cursor, token } :=
      Request.takeToken_eq_ok_iff.2 ⟨token, cursor, hnext, rfl⟩
    have hle := remaining_takeToken_le htake
    have hbehind : t.remaining ≤ State.remaining { s with symbols := .reserved, cursor, token } :=
      ih hrest
    exact Nat.le_trans hbehind hle

end State.Leaves

/-- A state in good order in a scope of a module, with fewer than `depth` tokens to come. -/
structure State.Within
    (s : State)
    (module : String)
    (owner : Scope.Owner)
    (depth : Nat) :
    Prop where
  moduleName : s.moduleName = module
  remaining : s.remaining < depth
  inScope : ∃ outer inner, s.Scoped owner outer inner

namespace State.Within

variable {s t : State} {module : String} {owner : Scope.Owner} {depth : Nat}

theorem orderly (h : s.Within module owner depth) : s.Orderly := by
  obtain ⟨outer, inner, hs⟩ := h.inScope
  exact ⟨owner, outer, inner, hs⟩

theorem owner_eq (h : s.Within module owner depth) : s.scope.owner = owner := by
  obtain ⟨outer, inner, hs⟩ := h.inScope
  exact hs.owner

end State.Within

theorem State.Leaves.within
    {s t : State}
    {trace : Trace}
    {module : String}
    {owner : Scope.Owner}
    {depth : Nat}
    (h : s.Leaves trace t)
    (hs : s.Within module owner depth) :
    t.Within module owner depth where
  moduleName := h.moduleName.trans hs.moduleName
  remaining := Nat.lt_of_le_of_lt (h.remaining_le hs.orderly) hs.remaining
  inScope := by
    obtain ⟨outer, inner, hs⟩ := hs.inScope
    obtain ⟨more, -, ht⟩ := h.inScope hs
    exact ⟨outer, _, ht⟩

theorem State.Scoped.takeToken
    {s t : State}
    {owner : Scope.Owner}
    {outer inner : List (String × Symbol.Kind)}
    (hs : s.Scoped owner outer inner)
    (h : Request.takeToken s = .ok () t) :
    t.Scoped owner outer inner :=
  (@honors_take someEntry owner outer inner 0).gives hs ((Action.gives_take ()).2 h)

/-- A passage reads its tokens and leaves its scope as it is. -/
theorem State.Passes.reads
    {s t : State}
    {words : List Word}
    {owner : Scope.Owner}
    {outer inner : List (String × Symbol.Kind)}
    (h : s.Passes words t)
    (hs : s.Scoped owner outer inner) :
    Reads s.vantage words t.vantage ∧ t.Scoped owner outer inner := by
  induction words generalizing s with
  | nil =>
    obtain rfl : t = s := h
    exact ⟨rfl, hs⟩
  | cons word words ih =>
    obtain ⟨hword, u, htake, hrest⟩ := h
    obtain ⟨hreads, ht⟩ := ih hrest (hs.takeToken htake)
    obtain ⟨token, cursor, hnext, rfl⟩ := Request.takeToken_eq_ok_iff.1 htake
    rw [hs.next_eq] at hnext
    exact ⟨⟨hword, token, cursor, hnext, hreads⟩, ht⟩

/-- A passage leaves its tokens and its text. -/
theorem State.Translates.leaves
    {s t : State}
    {words : List Word}
    {text : String}
    (h : s.Translates words text t) :
    s.Leaves { words, code := text } t := by
  obtain ⟨u, hpasses, rfl⟩ := h
  refine ⟨?_, ?_, fun hs => ?_, fun hs => ⟨[], rfl, ?_⟩, by simp⟩
  · obtain ⟨cursor, token, rfl⟩ := hpasses.frame
    simp [State.write]
  · obtain ⟨cursor, token, rfl⟩ := hpasses.frame
    rfl
  · obtain ⟨_, _, _, hs⟩ := hs
    exact (hpasses.reads hs).1
  · rw [List.append_nil]
    exact (hpasses.reads hs).2.of_eq rfl rfl rfl

/-- A name that is not reserved and that the innermost scope has not declared. -/
structure State.Open (s : State) (name : String) : Prop where
  unreserved : Keyword.ofSpelling? name = none
  fresh : ∀ {owner : Scope.Owner} {outer inner : List (String × Symbol.Kind)},
    s.Scoped owner outer inner →
    name ∉ inner.map Prod.fst

/-- A name that is read is no reserved word. -/
theorem State.Translates.unreserved
    {s t : State}
    {name text : String}
    {words : List Word}
    (h : s.Translates (.identifier name :: words) text t)
    (hs : s.Orderly) :
    Keyword.ofSpelling? name = none := by
  obtain ⟨hkind, rfl⟩ := (s.token.word_eq_identifier_iff name).1 h.token_word
  obtain ⟨_, _, _, hs⟩ := hs
  exact hs.token hkind

/-- A name stays open while only tokens are taken. -/
theorem State.Open.translates
    {s t : State}
    {name text : String}
    {words : List Word}
    (h : s.Open name)
    (hs : s.Orderly)
    (ht : s.Translates words text t) :
    t.Open name := by
  refine ⟨h.unreserved, fun ht' => ?_⟩
  obtain ⟨owner, outer, inner, hs⟩ := hs
  obtain ⟨more, hmore, ht⟩ := ht.leaves.inScope hs
  obtain rfl : more = [] := List.map_eq_nil_iff.1 hmore
  rw [List.append_nil] at ht
  obtain ⟨-, -, rfl⟩ := ht.unique ht'
  exact h.fresh hs

/-- A name that is found to stand for a module. -/
theorem State.Scoped.calls
    {s : State}
    {owner : Scope.Owner}
    {outer inner : List (String × Symbol.Kind)}
    {called real : String}
    {index target : Nat}
    {symbol : Symbol}
    (hs : s.Scoped owner outer inner)
    (hfind : s.symbols.find called = .ok (some index))
    (hresolve : s.symbols.resolve index = .ok target)
    (hsymbol : s.symbols.get target = .ok symbol)
    (hkind : symbol.kind = .imported ∨ symbol.kind = .thisModule)
    (hname : s.symbols.name target = .ok real) :
    Calls s.symbols.outline called real := by
  obtain ⟨⟨kind, hindex⟩, -⟩ := hs.symbols.newest hfind
  obtain ⟨found, hfound, hbare⟩ := hs.symbols.exists_get hindex
  have hentry : ∀ {i : Nat} {entry : String × Symbol.Kind}, (outer ++ inner)[i]? = some entry →
      s.symbols.outline[i]? = some (outlined entry) := by
    intro i entry h
    rw [hs.symbols.outline_eq, List.getElem?_map, h]
    rfl
  rw [SymbolTable.resolve, hfound] at hresolve
  have hown : target = index → Calls s.symbols.outline called real := by
    rintro rfl
    rw [hs.symbols.name_eq hindex] at hname
    rw [hfound] at hsymbol
    cases hname
    cases hsymbol
    have hmem := List.mem_of_getElem? (hentry hindex)
    refine Or.inl ⟨rfl, hkind.imp (fun hkind => ?_) fun hkind => ?_⟩
    all_goals
      rw [hkind] at hbare
      rwa [← hbare] at hmem
  cases hcase : found.kind with
  | aliasOf module =>
    obtain rfl : module = target := by simpa [hcase] using hresolve
    rw [hcase] at hbare
    obtain ⟨rfl, owner, howner⟩ := hs.alias_spec (hbare ▸ hindex)
    rw [hs.symbols.name_eq howner] at hname
    cases hname
    refine Or.inr ⟨module, hentry howner, ?_⟩
    rw [hentry hindex, ← hbare]
    rfl
  | _ => exact hown (by simpa [hcase, eq_comm] using hresolve)

/-- The names of a procedure stand for no modules. -/
theorem State.Scoped.no_module
    {s : State}
    {outer inner : List (String × Symbol.Kind)}
    (hs : s.Scoped .procedure outer inner) :
    ∀ entry ∈ inner.map outlined,
      entry.2 ≠ .imported ∧ entry.2 ≠ .thisModule ∧ entry.2 ≠ .aliasOf 0 := by
  intro entry hentry
  obtain ⟨⟨name, kind⟩, hmem, rfl⟩ := List.mem_map.1 hentry
  obtain hkind | ⟨hmodule, -⟩ := hs.declared.declares _ hmem
  · cases kind <;> first | exact hkind.elim | simp [outlined, Symbol.Kind.outline]
  · cases hmodule

/-- A module that is found by a name. -/
theorem State.Leaves.naming
    {s : State}
    {called real : String}
    (h : s.Orderly → Calls s.symbols.outline called real) :
    s.Leaves { named := [(called, real)] } s :=
  ⟨by simp, rfl, fun _ => rfl, fun hs => ⟨[], rfl, by simpa using hs⟩, fun hs p hp => by
    obtain rfl := List.mem_singleton.1 hp
    exact h hs⟩

/-- Only names that are `known` stand for modules, each for the module behind it. -/
def State.KnowsOnly (known : String → String → Prop) (s : State) : Prop :=
  ∀ called real, Calls s.symbols.outline called real → known called real

section KnowsOnly

variable {known : String → String → Prop} {s t : State} {trace : Trace}

theorem State.Leaves.knowsOnly
    (h : s.Leaves trace t)
    (hs : s.Orderly)
    (hknown : s.KnowsOnly known)
    (hadded : ∀ entry ∈ trace.added,
      entry.2 ≠ .imported ∧ entry.2 ≠ .thisModule ∧ entry.2 ≠ .aliasOf 0) :
    t.KnowsOnly known := by
  intro called real hcalls
  rw [h.outline_eq hs] at hcalls
  exact hknown called real (hcalls.of_append hadded)

theorem State.Leaves.knowsOnly_of_procedure
    {module : String}
    {depth : Nat}
    (h : s.Leaves trace t)
    (hs : s.Within module .procedure depth)
    (hknown : s.KnowsOnly known) :
    t.KnowsOnly known := by
  refine h.knowsOnly hs.orderly hknown fun entry hentry => ?_
  obtain ⟨outer, inner, hscoped⟩ := hs.inScope
  obtain ⟨more, hmore, ht⟩ := h.inScope hscoped
  refine ht.no_module entry ?_
  rw [List.map_append, hmore]
  exact List.mem_append_right _ hentry

end KnowsOnly

namespace Action

variable {α : Type} {depth : Nat} {s t : State}

theorem open_of_requireFresh
    {name : String}
    {a : Unit}
    (hname : Keyword.ofSpelling? name = none)
    (h : (requireFresh name).Gives depth s a t) :
    s.Open name :=
  ⟨hname, fun hs => ((@honors_requireFresh someEntry _ _ _ depth name).gives hs h).1⟩

theorem leaves_publish {text : String} {a : Unit} (h : (publish text).Gives depth s a t) :
    s.Leaves { published := text } t := by
  obtain rfl := (gives_publish text a).1 h
  exact .of_kept (by simp [State.publish]) rfl rfl fun hs => hs.of_eq rfl rfl rfl

theorem leaves_setType
    {index : Nat}
    {type : DataType}
    {a : Unit}
    (h : (setType index type).Gives depth s a t) :
    s.Leaves {} t := by
  obtain ⟨symbols, hset, rfl⟩ := (gives_setType index type a).1 h
  exact .of_kept (by simp) rfl rfl fun hs =>
    ⟨hs.token, hs.symbols.setType hset, hs.encloses, hs.declared, hs.owner, hs.floor, hs.result⟩

theorem leaves_addType
    {shape : Shape} {type : DataType} (h : (addType shape).Gives depth s type t) :
    s.Leaves {} t := by
  obtain ⟨-, rfl⟩ := (gives_addType shape type).1 h
  exact .of_kept (by simp) rfl rfl fun hs => hs.of_eq rfl rfl rfl

/-- Looking whether a name is fresh changes nothing. -/
theorem eq_of_requireFresh
    {name : String} {a : Unit} (h : (requireFresh name).Gives depth s a t) :
    t = s := by
  unfold requireFresh at h
  simp only [gives_bind, gives_find] at h
  obtain ⟨found, u, ⟨-, rfl⟩, h⟩ := h
  cases found with
  | none => exact ((gives_pure _ _).1 h).2
  | some index =>
    simp only [gives_bind, gives_scope, gives_ite, gives_pure] at h
    obtain ⟨_, v, ⟨-, rfl⟩, ⟨-, h⟩ | ⟨-, -, rfl⟩⟩ := h
    · exact absurd h (gives_reject _ _)
    · rfl

theorem leaves_declare
    {name : String} {kind : Symbol.Kind} {type : DataType} {index : Nat} (hopen : s.Open name)
    (hkind : s.scope.owner.Declares kind) (h : (declare name kind type).Gives depth s index t) :
    s.Leaves { added := [(name, kind.outline)] } t := by
  obtain ⟨symbols, -, rfl⟩ := (gives_declare name kind type index).1 h
  refine .of_symbols fun {owner outer inner} hs => ⟨[(name, kind)], rfl, ?_⟩
  have hdeclare :=
    @honors_declare someEntry owner outer inner depth name kind type (hopen.fresh hs)
      hopen.unreserved
    (hs.owner ▸ hkind)
  exact (hdeclare.gives hs h).2

/-- A module and right behind it another name for it. -/
theorem leaves_declare_renamed
    {name real : String}
    {target index : Nat}
    {u : State}
    (hname : s.Open name)
    (hreal : s.Open real)
    (howner : s.scope.owner = .module)
    (hmodule : (declare real .imported .unknown).Gives depth s target u)
    (halias : (declare name (.aliasOf target) .unknown).Gives depth u index t) :
    s.Leaves { added := [(real, .imported), (name, .aliasOf 0)] } t := by
  obtain ⟨symbols, -, rfl⟩ := (gives_declare real .imported .unknown target).1 hmodule
  obtain ⟨symbols', -, rfl⟩ := (gives_declare name (.aliasOf target) .unknown index).1 halias
  refine .of_symbols fun {owner outer inner} hs =>
    ⟨[(real, .imported)] ++ [(name, .aliasOf target)], rfl, ?_⟩
  obtain rfl : owner = .module := hs.owner.symm.trans howner
  obtain rfl : outer = reservedEntries := hs.encloses
  have himported : Scope.Owner.module.Declares .imported := trivial
  obtain ⟨rfl, hu⟩ :=
    (@honors_declare someEntry _ _ inner depth real .imported .unknown (hreal.fresh hs)
      hreal.unreserved
    himported).gives hs hmodule
  have hboth : Declared .module
      (inner ++ [(real, .imported)] ++ [(name, .aliasOf (reservedEntries ++ inner).length)]) := by
    rw [List.length_append]
    exact .rename hs.declared (hname.fresh hs) (hreal.fresh hs) hname.unreserved hreal.unreserved
  rw [← List.append_assoc]
  exact ((@honors_declare_of someEntry _ _ _ depth _ _ .unknown hboth rfl).gives hu halias).2

/-- Entering the types of a procedure is not in view. -/
theorem leaves_setSignature
    {index : Nat}
    {exported : Bool}
    {parameters : List DataType}
    {result : DataType}
    {a : Unit}
    {name : String}
    {outer inner : List (String × Symbol.Kind)}
    (hs : s.Scoped .procedure outer inner)
    (hindex : (outer ++ inner)[index]? = some (name, .procedure exported []))
    (h : (ask (.setSignature index exported parameters result) done).Gives depth s a t) :
    s.Leaves {} t := by
  obtain ⟨symbols, hset, rfl⟩ := (gives_setSignature index exported parameters result a).1 h
  refine .of_kept (by simp) rfl rfl fun hs' => ?_
  obtain ⟨rfl, rfl, rfl⟩ := hs.unique hs'
  exact ⟨hs.token, hs.symbols.setSignature hindex hset rfl, hs.encloses, hs.declared, hs.owner,
    hs.floor, fun howner => by cases hs.owner.symm.trans howner⟩

/-- The names that are declared in a procedure scope of its own are gone behind it. -/
theorem exists_leaves_of_inProcedure
    {body : Action α}
    {a : α}
    (howner : s.scope.owner = .module)
    (h : (inProcedure body done).Gives depth s a t) :
    ∃ u,
      body.Gives depth s.entered a u ∧
      u.symbols.release s.symbols.mark = .ok () t.symbols ∧
      t.types = u.types ∧
      t.scope = .ofModule s.scope.floor ∧
      ∀ trace, State.Leaves s.entered trace u → s.Leaves trace.released t := by
  obtain ⟨u, symbols, hgives, hrelease, rfl⟩ := (gives_inProcedure body a).1 h
  refine ⟨u, hgives, hrelease, rfl, rfl, fun trace hleaves => ?_⟩
  -- Inside the procedure, the entries of the module are those around the scope.
  have hinside : ∀ {owner : Scope.Owner} {outer inner : List (String × Symbol.Kind)},
        s.Scoped owner outer inner →
      ∃ more, u.Scoped .procedure (outer ++ inner) more ∧
        State.Scoped { u with symbols, scope := .ofModule s.scope.floor } owner outer inner := by
    intro owner outer inner hs
    obtain rfl : owner = .module := hs.owner.symm.trans howner
    obtain ⟨more, -, hu⟩ := hleaves.inScope hs.enter
    obtain ⟨released, hreleased, ht⟩ := hs.leave hu
    rw [hrelease] at hreleased
    cases hreleased
    exact ⟨_, hu, ht⟩
  have horderly : s.Orderly →
      State.Orderly s.entered := by
    rintro ⟨owner, outer, inner, hs⟩
    obtain rfl : owner = .module := hs.owner.symm.trans howner
    exact ⟨_, _, _, hs.enter⟩
  refine ⟨hleaves.output, hleaves.moduleName, fun hs => hleaves.reads (horderly hs), fun hs => ?_,
    fun hs p hp => ?_⟩
  · obtain ⟨-, -, ht⟩ := hinside hs
    exact ⟨[], rfl, by simpa using ht⟩
  · obtain ⟨owner, outer, inner, hs'⟩ := id hs
    obtain ⟨more, hu, ht⟩ := hinside hs'
    have hnamed := hleaves.named (horderly hs) p hp
    rw [hu.symbols.outline_eq, List.map_append, ← ht.symbols.outline_eq] at hnamed
    exact hnamed.of_append hu.no_module

/-! ### Loops -/

section Loops

variable {ι : Type} {trace : ι → Trace} {module : String} {owner : Scope.Owner}

/--
Rounds that each leave a trace and take a step, where an invariant may be known of the states
between them.
-/
theorem leaves_of_keeping_rounds
    {more : Action Bool}
    {body : Action Unit}
    (trace : ι → Trace)
    {I : State → Prop}
    (step : State → ι → State → Prop)
    (hround : ∀ {u v w : State}, u.Within module owner depth → I u →
      more.Gives depth u true v →
      body.Gives depth v () w →
      I w ∧ ∃ x, u.Leaves (trace x) w ∧ step u x w)
    (hlast : ∀ {u v : State}, more.Gives depth u false v → v = u)
    (hs : s.Within module owner depth)
    (hI : I s)
    (h : Rounds depth more body s t) :
    I t ∧ ∃ xs : List ι, s.Leaves (.join (xs.map trace)) t ∧ Steps step s xs t := by
  induction h with
  | last hmore =>
    obtain rfl := hlast hmore
    exact ⟨hI, [], .refl _, .nil _⟩
  | again hmore hbody _ ih =>
    obtain ⟨hkept, x, hx, hstep⟩ := hround hs hI hmore hbody
    obtain ⟨ht, xs, hxs, hsteps⟩ := ih (hx.within hs) hkept
    exact ⟨ht, x :: xs, hx.trans hxs, .cons hstep hsteps⟩

theorem leaves_of_rounds
    {more : Action Bool}
    {body : Action Unit}
    (trace : ι → Trace)
    (step : State → ι → State → Prop)
    (hround : ∀ {u v w : State}, u.Within module owner depth → more.Gives depth u true v →
      body.Gives depth v () w → ∃ x, u.Leaves (trace x) w ∧ step u x w)
    (hlast : ∀ {u v : State}, more.Gives depth u false v → v = u)
    (hs : s.Within module owner depth)
    (h : Rounds depth more body s t) :
    ∃ xs : List ι, s.Leaves (.join (xs.map trace)) t ∧ Steps step s xs t :=
  (leaves_of_keeping_rounds trace (I := fun _ => True) step
    (fun hu _ hmore hbody => ⟨trivial, hround hu hmore hbody⟩) hlast hs trivial h).2

theorem Items.types_extends
    {item : Action α} {more : Action Bool} {items : List α} (h : Items depth item more s items t) :
    t.types.Extends s.types := by
  induction h with
  | last hgives hend => exact (kept_types.gives hend).trans (kept_types.gives hgives)
  | cons hgives hagain _ ih =>
    exact ih.trans ((kept_types.gives hagain).trans (kept_types.gives hgives))

/--
Items of a list with a separator, each of which leaves a trace and takes a step, which may as well
begin in front of a separator. The types that an item adds are there at the end.
-/
theorem leaves_of_stepping_items
    {item : Action α}
    {more : Action Bool}
    {separator : Trace}
    {items : List α}
    (trace : ι → Trace)
    (R : α → ι → Prop)
    (step : State → ι → State → Prop)
    (hitem : ∀ {u v : State} {a : α}, u.Within module owner depth →
      t.types.Extends v.types →
      item.Gives depth u a v →
      ∃ x, R a x ∧ u.Leaves (trace x) v ∧ step u x v)
    (hmore : ∀ {u v : State}, more.Gives depth u true v →
      u.Leaves separator v ∧ ∀ {x : ι} {w : State}, step v x w → step u x w)
    (hlast : ∀ {u v : State}, more.Gives depth u false v → v = u)
    (hs : s.Within module owner depth)
    (h : Items depth item more s items t) :
    ∃ (first : ι) (others : List ι),
      List.Forall₂ R items (first :: others) ∧
      s.Leaves (trace first ++ .join (others.map fun x => separator ++ trace x)) t ∧
      Steps step s (first :: others) t := by
  induction h with
  | last hgives hend =>
    obtain ⟨x, hR, hx, hstep⟩ := hitem hs (kept_types.gives hend) hgives
    obtain rfl := hlast hend
    exact ⟨x, [], .cons hR .nil, hx.trans (.refl _), .cons hstep (.nil _)⟩
  | cons hgives hagain hrest ih =>
    obtain ⟨x, hR, hx, hstep⟩ :=
      hitem hs (hrest.types_extends.trans (kept_types.gives hagain)) hgives
    obtain ⟨hseparator, hfront⟩ := hmore hagain
    have hseparated := hx.trans hseparator
    obtain ⟨first, others, hothers, hleaves, hsteps⟩ := ih hitem (hseparated.within hs)
    cases hsteps with
    | cons hnext hsteps =>
      refine ⟨x, first :: others, .cons hR hothers, (hseparated.trans hleaves).of_eq ?_,
        .cons hstep (.cons (hfront hnext) hsteps)⟩
      simp [Trace.append_assoc]

/-- Items of a list with a separator, each of which leaves a trace. -/
theorem leaves_of_items
    {item : Action α}
    {more : Action Bool}
    {separator : Trace}
    {items : List α}
    (trace : ι → Trace)
    (R : α → ι → Prop)
    (hitem : ∀ {u v : State} {a : α}, u.Within module owner depth →
      item.Gives depth u a v → ∃ x, R a x ∧ u.Leaves (trace x) v)
    (hmore : ∀ {u v : State}, more.Gives depth u true v → u.Leaves separator v)
    (hlast : ∀ {u v : State}, more.Gives depth u false v → v = u)
    (hs : s.Within module owner depth)
    (h : Items depth item more s items t) :
    ∃ (first : ι) (others : List ι),
      List.Forall₂ R items (first :: others) ∧
      s.Leaves (trace first ++ .join (others.map fun x => separator ++ trace x)) t := by
  obtain ⟨first, others, hR, hleaves, -⟩ := leaves_of_stepping_items trace R (fun _ _ _ => True)
    (fun hu _ hgives => by
      obtain ⟨x, hR, hx⟩ := hitem hu hgives
      exact ⟨x, hR, hx, trivial⟩)
    (fun hagain => ⟨hmore hagain, id⟩) hlast hs h
  exact ⟨first, others, hR, hleaves⟩

theorem leaves_of_forM
    {f : ι → Action Unit}
    {items : List ι}
    {a : Unit}
    (hitem : ∀ (x : ι) {u v : State}, u.Within module owner depth →
      (f x).Gives depth u () v → u.Leaves (trace x) v)
    (hs : s.Within module owner depth)
    (h : (items.forM f).Gives depth s a t) :
    s.Leaves (.join (items.map trace)) t := by
  induction items generalizing s with
  | nil =>
    obtain ⟨-, rfl⟩ := (gives_pure _ _).1 h
    exact .refl _
  | cons x items ih =>
    obtain ⟨_, u, hx, hrest⟩ := (gives_bind _ _ _).1 h
    have hleaves := hitem x hs hx
    exact hleaves.trans (ih (hleaves.within hs) hrest)

/-- Actions that leave nothing and whose results are of interest. -/
theorem leaves_of_mapM
    {β γ : Type}
    {f : ι → Action β}
    {items : List ι}
    {results : List β}
    (view : β → γ)
    (expected : ι → γ)
    (hitem : ∀ (x : ι) {u v : State} {b : β}, u.Within module owner depth →
      (f x).Gives depth u b v → u.Leaves {} v ∧ view b = expected x)
    (hs : s.Within module owner depth)
    (h : (items.mapM f).Gives depth s results t) :
    s.Leaves {} t ∧ results.map view = items.map expected := by
  induction items generalizing s results with
  | nil =>
    rw [List.mapM_nil] at h
    obtain ⟨rfl, rfl⟩ := (gives_pure _ _).1 h
    exact ⟨.refl _, rfl⟩
  | cons x items ih =>
    simp only [List.mapM_cons, gives_bind, gives_pure] at h
    obtain ⟨b, u, hx, others, v, hothers, rfl, rfl⟩ := h
    obtain ⟨hleaves, hb⟩ := hitem x hs hx
    obtain ⟨hrest, hresults⟩ := ih (hleaves.within hs) hothers
    exact ⟨(hleaves.trans hrest).of_eq (by simp [Trace.ext_iff]), by simp [hb, hresults]⟩

end Loops

end Action

end Compilation
end Oberon
