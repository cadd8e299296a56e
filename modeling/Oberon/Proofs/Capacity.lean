import Oberon.Proofs.Lockstep

/-!
# Limits of the symbol table

The limits of a symbol table decide only whether one more name fits.  So a compilation that does not
run into its limits is the same under larger ones: the same two texts, or the same error in the same
line.

**Main statement.**  `compile_eq_of_larger_limits`.
-/

namespace Oberon

/-- One pair of limits leaves as much room as another one. -/
def Limits.Fits (small large : Limits) : Prop :=
  small.symbols ≤ large.symbols ∧ small.nameBytes ≤ large.nameBytes

namespace SymbolTable

/-- The same names under other limits. -/
def withLimits (t : SymbolTable) (limits : Limits) : SymbolTable := { t with limits }

variable {t u : SymbolTable} {limits : Limits}

/-! ### Look-up -/

theorem findBelow_withLimits (wanted : String) (count : Nat) :
    (t.withLimits limits).findBelow wanted count = t.findBelow wanted count := by
  induction count with
  | zero => rfl
  | succ count ih =>
    unfold findBelow
    rw [ih]
    rfl

theorem find_withLimits (wanted : String) : (t.withLimits limits).find wanted = t.find wanted :=
  findBelow_withLimits wanted t.size

theorem keyword?_withLimits (wanted : String) :
    (t.withLimits limits).keyword? wanted = t.keyword? wanted := by
  unfold keyword?
  rw [find_withLimits]
  rfl

theorem next_withLimits (c : Cursor) : c.next (t.withLimits limits) = c.next t := by
  unfold Cursor.next
  simp only [keyword?_withLimits]

/-! ### Changes -/

theorem update_withLimits (index : Nat) (change : Symbol → Symbol) :
    (t.withLimits limits).update index change =
      (t.update index change).map (withLimits · limits) := by
  unfold update
  by_cases hindex : index < t.size
  · rw [if_pos hindex]
    exact if_pos hindex
  · rw [if_neg hindex]
    exact if_neg hindex

/-- What fits under limits fits under larger ones. -/
theorem add_withLimits
    {name : String}
    {kind : Symbol.Kind}
    {type : DataType}
    {index : Nat}
    (h : t.add name kind type = .ok (index, u))
    (hfits : t.limits.Fits limits) :
    (t.withLimits limits).add name kind type = .ok (index, u.withLimits limits) ∧
    u.limits = t.limits := by
  unfold add at h
  split at h
  · cases h
  · split at h
    · cases h
    · cases h
      have hsymbols : ¬ limits.symbols ≤ t.size := by have := hfits.1; omega
      have hbytes : ¬ limits.nameBytes ≤ t.nameBytes + name.utf8ByteSize := by
        have := hfits.2
        omega
      exact ⟨(if_neg hsymbols).trans (if_neg hbytes), rfl⟩

/-- A scope is left in the same way, with the limits as they were. -/
theorem release_withLimits (t : SymbolTable) (limits : Limits) (mark : Mark) :
    match t.release mark with
    | .ok _ u =>
      (t.withLimits limits).release mark = .ok () (u.withLimits limits) ∧ u.limits = t.limits
    | .error fault u =>
      (t.withLimits limits).release mark = .error fault (u.withLimits limits) ∧
        u.limits = t.limits := by
  unfold release
  by_cases hbytes : t.nameBytes ≤ mark.nameBytes
  · rw [if_pos hbytes]
    exact ⟨if_pos hbytes, rfl⟩
  · rw [if_neg hbytes]
    have hlarger : ¬ (t.withLimits limits).nameBytes ≤ mark.nameBytes := hbytes
    rw [if_neg hlarger]
    cases htake : Names.take? t.names mark.nameBytes with
    | some names =>
      have hnames : Names.take? (t.withLimits limits).names mark.nameBytes = some names := htake
      rw [hnames]
      exact ⟨rfl, rfl⟩
    | none =>
      have hnames : Names.take? (t.withLimits limits).names mark.nameBytes = none := htake
      rw [hnames]
      exact ⟨rfl, rfl⟩

theorem addKeywords_withLimits
    {words : List Keyword}
    (h : addKeywords words t = .ok () u)
    (hfits : t.limits.Fits limits) :
    addKeywords words (t.withLimits limits) = .ok () (u.withLimits limits) ∧
    u.limits = t.limits := by
  induction words generalizing t with
  | nil =>
    cases h
    exact ⟨rfl, rfl⟩
  | cons word words ih =>
    unfold addKeywords at h ⊢
    split at h
    · rename_i index next hadd
      obtain ⟨hlarger, hlimits⟩ := add_withLimits hadd hfits
      obtain ⟨hothers, hkept⟩ := ih h (hlimits ▸ hfits)
      exact ⟨by rw [hlarger]; exact hothers, hkept.trans hlimits⟩
    · cases h

end SymbolTable

namespace Compilation

/-- The same state under larger limits. -/
def Roomier (limits : Limits) (s t : State) : Prop :=
  s.symbols.limits.Fits limits ∧ t = { s with symbols := s.symbols.withLimits limits }

/-- A diagnostic about an exceeded limit. -/
def ExceedsLimit (diagnostic : Diagnostic) : Prop := ∃ error, diagnostic = .limit error

variable {limits : Limits}

theorem Roomier.take {s t : State} (h : Roomier limits s t) :
    Alike (Roomier limits) ExceedsLimit (Request.takeToken s) (Request.takeToken t) := by
  obtain ⟨hfits, rfl⟩ := h
  unfold Request.takeToken
  simp only [SymbolTable.next_withLimits]
  split
  · exact .ok ⟨hfits, rfl⟩
  · exact .error ⟨hfits, rfl⟩
  · exact .error ⟨hfits, rfl⟩

/-- Only a new name can halt the run with the smaller limits alone. -/
theorem Roomier.declare
    {s t : State}
    (h : Roomier limits s t)
    (name : String)
    (kind : Symbol.Kind)
    (type : DataType) :
    Alike (Roomier limits) ExceedsLimit (Request.declareSymbol name kind type s)
      (Request.declareSymbol name kind type t) := by
  obtain ⟨hfits, rfl⟩ := h
  unfold Request.declareSymbol
  cases hadd : s.symbols.add name kind type with
  | error e => exact .first ⟨e, rfl⟩
  | ok added =>
    obtain ⟨index, symbols⟩ := added
    obtain ⟨hlarger, hlimits⟩ := SymbolTable.add_withLimits hadd hfits
    simp only [hlarger]
    exact .ok ⟨by simpa only [hlimits] using hfits, rfl⟩

theorem Roomier.update
    {s t : State}
    (h : Roomier limits s t)
    (index : Nat)
    (change : Symbol → Symbol) :
    Alike (Roomier limits) ExceedsLimit (Request.changeSymbols
      (fun table => table.update index change) s) (Request.changeSymbols
      (fun table => table.update index change) t) := by
  obtain ⟨hfits, rfl⟩ := h
  unfold Request.changeSymbols
  dsimp only
  rw [SymbolTable.update_withLimits]
  cases hupdate : s.symbols.update index change with
  | error fault => exact .error ⟨hfits, rfl⟩
  | ok symbols => exact .ok ⟨by simpa only [SymbolTable.limits_of_update hupdate] using hfits, rfl⟩

theorem Roomier.leave
    {s t : State}
    (h : Roomier limits s t)
    (mark : SymbolTable.Mark)
    (floor : Nat) :
    Alike (Roomier limits) ExceedsLimit (Action.leave mark floor s)
      (Action.leave mark floor t) := by
  obtain ⟨hfits, rfl⟩ := h
  have hrelease := SymbolTable.release_withLimits s.symbols limits mark
  unfold Action.leave
  cases hsmall : s.symbols.release mark with
  | ok a u =>
    rw [hsmall] at hrelease
    simp only [hrelease.1]
    exact .ok ⟨by simpa only [hrelease.2] using hfits, rfl⟩
  | error fault u =>
    rw [hsmall] at hrelease
    simp only [hrelease.1]
    exact .error ⟨by simpa only [hrelease.2] using hfits, rfl⟩

/-- No request tells limits apart that leave room for it. -/
theorem lockstep_roomier : Lockstep (Roomier limits) ExceedsLimit where
  request request s t h := by
    have hs := h
    obtain ⟨hfits, rfl⟩ := h
    cases request with
    | take => exact hs.take
    | declare name kind type => exact hs.declare name kind type
    | setType index type => exact hs.update index _
    | setSignature index exported parameters result =>
      refine (hs.update index _).bind fun _ u v h => ?_
      obtain ⟨hfits, rfl⟩ := h
      exact .ok ⟨hfits, rfl⟩
    | find name =>
      change Alike _ _ (Request.ofTable _ _)
        (Request.ofTable (SymbolTable.find (SymbolTable.withLimits _ _) name) _)
      rw [SymbolTable.find_withLimits]
      exact Alike.ofTable hs _
    | symbol index => exact Alike.ofTable hs (s.symbols.get index)
    | nameOf index => exact Alike.ofTable hs (s.symbols.name index)
    | resolve index => exact Alike.ofTable hs (s.symbols.resolve index)
    | requireCompatible a b => exact Alike.ofTypes hs (s.types.requireCompatible a b)
    | element type => exact Alike.ofTypes hs (s.types.element type)
    | look => exact .ok hs
    | form type => exact .ok hs
    | moduleName => exact .ok hs
    | scope => exact .ok hs
    | write text => exact .ok ⟨hfits, rfl⟩
    | publish text => exact .ok ⟨hfits, rfl⟩
    | addType shape => exact .ok ⟨hfits, rfl⟩
    | nameModule name => exact .ok ⟨hfits, rfl⟩
  opened h := by
    obtain ⟨hfits, rfl⟩ := h
    exact ⟨hfits, rfl⟩
  captured h := by rw [h.2]
  closed h := by
    obtain ⟨hfits, rfl⟩ := h
    exact ⟨hfits, rfl⟩
  scope h := by
    obtain ⟨hfits, rfl⟩ := h
    exact ⟨rfl, rfl⟩
  entered scope h := by
    obtain ⟨hfits, rfl⟩ := h
    exact ⟨hfits, rfl⟩
  left mark floor h := h.leave mark floor

/-- Under larger limits the first token is the same, or fails in the same way. -/
theorem start_of_larger_limits (source : String) {small large : Limits} (hfits : small.Fits large) :
    match State.start source small with
    | .ok s => ∃ t, State.start source large = .ok t ∧ Roomier large s t
    | .error halt =>
      State.start source large = .error halt ∨ ∃ error, halt = .rejected (.limit error) := by
  unfold State.start
  cases hseed : (SymbolTable.empty small).seed with
  | error e u => exact Or.inr ⟨e, rfl⟩
  | ok a symbols =>
    obtain ⟨hlarge, hlimits⟩ : (SymbolTable.empty large).seed = .ok () (symbols.withLimits large) ∧
        symbols.limits = small :=
      SymbolTable.addKeywords_withLimits hseed hfits
    have hroom : symbols.limits.Fits large := by
      rw [hlimits]
      exact hfits
    simp only [hlarge, SymbolTable.next_withLimits]
    cases (Cursor.ofText source).next symbols with
    | ok token cursor => exact ⟨_, rfl, hroom, rfl⟩
    | error halt cursor =>
      cases halt with
      | malformed e => exact Or.inl rfl
      | fault f => exact Or.inl rfl

end Compilation

open Compilation in
/--
Larger limits change nothing about a compilation that does not exceed its limits: not the two texts,
the error or its line.
-/
theorem compile_eq_of_larger_limits
    (name source header : String)
    {small large : Limits}
    (hsymbols : small.symbols ≤ large.symbols)
    (hbytes : small.nameBytes ≤ large.nameBytes)
    (hroom : ∀ line error,
      compile name source header small ≠ .error ⟨name, line, .rejected (.limit error)⟩) :
    compile name source header large = compile name source header small := by
  have hfits : small.Fits large := ⟨hsymbols, hbytes⟩
  have hfirst := start_of_larger_limits source hfits
  unfold compile at hroom ⊢
  cases hsmall : State.start source small with
  | error halt =>
    rw [hsmall] at hfirst hroom
    obtain hlarge | ⟨e, rfl⟩ := hfirst
    · rw [hlarge]
    · exact absurd rfl (hroom 1 e)
  | ok s =>
    rw [hsmall] at hfirst hroom
    obtain ⟨t, hlarge, hst⟩ := hfirst
    rw [hlarge]
    dsimp only at hroom ⊢
    obtain ⟨u, v, hs, ht, -, rfl⟩ | ⟨diagnostic, u, v, hs, ht, -, rfl⟩ |
        ⟨diagnostic, u, hs, e, rfl⟩ :=
      lockstep_roomier.compiled hsmall hlarge hst
    · rw [hs, ht]
    · rw [hs, ht]
      rfl
    · rw [hs] at hroom
      exact absurd rfl (hroom u.line e)

/--
The reserved words, the module and one variable fill these limits to the last place; the usual
limits give the same texts.
-/
theorem compile_eq_of_filled_limits :
    (compile "M" "MODULE M;VAR x:CHAR;END M." "M.h" ⟨45, 197⟩).toOption.isSome = true ∧
    compile "M" "MODULE M;VAR x:CHAR;END M." "M.h" {} =
      compile "M" "MODULE M;VAR x:CHAR;END M." "M.h" ⟨45, 197⟩ := by
  have hok : (compile "M" "MODULE M;VAR x:CHAR;END M." "M.h" ⟨45, 197⟩).toOption.isSome = true := by
    decide +kernel
  refine ⟨hok, compile_eq_of_larger_limits _ _ _ (by decide) (by decide) fun line error hfull => ?_⟩
  rw [hfull] at hok
  cases hok

end Oberon
