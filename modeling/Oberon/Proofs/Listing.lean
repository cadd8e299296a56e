import Oberon.Proofs.NameBuffer

/-!
# Symbol tables as lists

The names of a symbol table stand one behind the other in its name buffer, and its entries point
into the buffer. `SymbolTable.Lists` says that a table is laid out in this way for a list of named
entries.

* declaring a name adds an entry to the list (`Lists.add`);
* changing an entry changes it in the list (`Lists.update`);
* releasing a mark cuts the list back to the entries that it had when the mark was taken
  (`Lists.exists_release`).

`SymbolTable.Shows` looks at the entries through a view of their kinds, for which types and
signatures are out of sight.
-/

namespace Oberon

/-- An entry of a symbol table together with its name. -/
structure Entry where
  name : String
  kind : Symbol.Kind
  type : DataType
  deriving DecidableEq, Repr

namespace Entry

/-- The entry as it is stored when its name begins at an offset. -/
def symbolAt (e : Entry) (start : Nat) : Symbol :=
  ⟨start, e.name.utf8ByteSize, e.kind, e.type⟩

/-- The names of entries, one behind the other. -/
def buffer (entries : List Entry) : String :=
  String.join (entries.map name)

/-- The entries as they are stored when the first name begins at an offset. -/
def layout : Nat → List Entry → List Symbol
  | _, [] => []
  | start, e :: entries => e.symbolAt start :: layout (start + e.name.utf8ByteSize) entries

@[simp] theorem buffer_nil : buffer [] = "" := by
  simp [buffer]

@[simp] theorem buffer_cons (e : Entry) (entries : List Entry) :
    buffer (e :: entries) = e.name ++ buffer entries := by
  simp [buffer]

@[simp] theorem buffer_append (entries others : List Entry) :
    buffer (entries ++ others) = buffer entries ++ buffer others := by
  simp [buffer]

@[simp] theorem length_layout (start : Nat) (entries : List Entry) :
    (layout start entries).length = entries.length := by
  induction entries generalizing start with
  | nil => rfl
  | cons e entries ih => simp [layout, ih]

theorem layout_append (start : Nat) (entries others : List Entry) :
    layout start (entries ++ others) =
      layout start entries ++ layout (start + (buffer entries).utf8ByteSize) others := by
  induction entries generalizing start with
  | nil => simp [layout]
  | cons e entries ih =>
    rw [List.cons_append, layout, layout, ih, buffer_cons, String.utf8ByteSize_append,
      Nat.add_assoc, List.cons_append]

/-- A change that keeps names keeps the layout. -/
theorem layout_modify
    {change : Symbol → Symbol}
    {f : Entry → Entry}
    (hname : ∀ e, (f e).name = e.name)
    (hchange : ∀ e start, change (e.symbolAt start) = (f e).symbolAt start)
    (entries : List Entry)
    (index start : Nat) :
    (layout start entries).modify index change = layout start (entries.modify index f) := by
  induction entries generalizing index start with
  | nil => simp [layout]
  | cons e entries ih =>
    cases index with
    | zero => simp [layout, hname, hchange]
    | succ index => simp [layout, ih]

/-- A change that `g` does not see. -/
theorem map_modify
    {β : Type}
    {g : Entry → β}
    {f : Entry → Entry}
    {entries : List Entry}
    {index : Nat}
    (h : ∀ e, entries[index]? = some e → g (f e) = g e) :
    (entries.modify index f).map g = entries.map g := by
  refine List.ext_getElem? fun i => ?_
  rw [List.getElem?_map, List.getElem?_map, List.getElem?_modify]
  by_cases hi : index = i
  · subst hi
    cases hentry : entries[index]? with
    | none => rfl
    | some e => simp [h e hentry]
  · simp [hi]

theorem buffer_modify
    {f : Entry → Entry}
    (hname : ∀ e, (f e).name = e.name)
    (entries : List Entry)
    (index : Nat) :
    buffer (entries.modify index f) = buffer entries := by
  rw [buffer, map_modify fun e _ => hname e, buffer]

end Entry

namespace SymbolTable

open Entry

/-! ### Declaring -/

section Declaring

variable {t u : SymbolTable} {name : String} {kind : Symbol.Kind} {type : DataType} {index : Nat}

/-- A name that fits is put behind the others. -/
theorem eq_push_of_add (h : t.add name kind type = .ok (index, u)) :
    index = t.size ∧ u = t.push name kind type := by
  unfold add at h
  split at h
  · cases h
  · split at h <;> cases h
    exact ⟨rfl, rfl⟩

/-- Reserved words that fit are put one behind the other. -/
theorem eq_foldl_of_addKeywords {words : List Keyword} (h : t.addKeywords words = .ok () u) :
    u = words.foldl (fun t word => t.push word.spelling (.reserved word) (.ofKeyword word)) t := by
  induction words generalizing t with
  | nil =>
    cases h
    rfl
  | cons word words ih =>
    unfold addKeywords at h
    split at h
    · rename_i index next hadd
      rw [List.foldl_cons, ← (eq_push_of_add hadd).2]
      exact ih h
    · cases h

end Declaring

/-! ### Limits -/

section Limits

variable {t u : SymbolTable}

theorem limits_of_add {name : String} {kind : Symbol.Kind} {type : DataType} {index : Nat}
    (h : t.add name kind type = .ok (index, u)) : u.limits = t.limits := by
  rw [(eq_push_of_add h).2]
  rfl

theorem limits_of_update
    {index : Nat} {change : Symbol → Symbol} (h : t.update index change = .ok u) :
    u.limits = t.limits := by
  unfold update at h
  split at h
  · cases h
    rfl
  · cases h

theorem limits_of_release {mark : Mark} (h : t.release mark = .ok () u) : u.limits = t.limits := by
  unfold release at h
  dsimp only at h
  split at h
  · cases h
    rfl
  · split at h <;> cases h
    rfl

end Limits

/-! ### Layouts -/

/-- The table is laid out as a list of entries. -/
structure Lists (t : SymbolTable) (entries : List Entry) : Prop where
  names : t.names = buffer entries
  entries : t.entries.toList = layout 0 entries

namespace Lists

variable {t u : SymbolTable} {entries others : List Entry}

theorem empty (limits : Limits) : (SymbolTable.empty limits).Lists [] :=
  ⟨by simp [SymbolTable.empty], rfl⟩

theorem size_eq (h : t.Lists entries) : t.size = entries.length := by
  rw [SymbolTable.size, ← Array.length_toList, h.entries, length_layout]

/-- Entries and limits determine a table. -/
theorem table_eq
    (ht : t.Lists entries) (hu : u.Lists entries) (hlimits : t.limits = u.limits) :
    t = u := by
  have hentries : t.entries = u.entries := Array.ext' (ht.entries.trans hu.entries.symm)
  have hnames : t.names = u.names := ht.names.trans hu.names.symm
  cases t
  cases u
  simp_all

theorem push (h : t.Lists entries) (e : Entry) :
    (t.push e.name e.kind e.type).Lists (entries ++ [e]) where
  names := by simp [SymbolTable.push, h.names]
  entries := by
    rw [layout_append]
    simp [SymbolTable.push, h.entries, layout, symbolAt, SymbolTable.nameBytes, h.names]

/-- Declaring a name adds an entry, and gives its place in the list. -/
theorem add
    {name : String} {kind : Symbol.Kind} {type : DataType} {index : Nat} (h : t.Lists entries)
    (hadd : t.add name kind type = .ok (index, u)) :
    index = entries.length ∧ u.Lists (entries ++ [⟨name, kind, type⟩]) := by
  obtain ⟨rfl, rfl⟩ := eq_push_of_add hadd
  exact ⟨h.size_eq, h.push ⟨name, kind, type⟩⟩

theorem update
    {change : Symbol → Symbol}
    {f : Entry → Entry}
    {index : Nat}
    (h : t.Lists entries)
    (hname : ∀ e, (f e).name = e.name)
    (hchange : ∀ e start, change (e.symbolAt start) = (f e).symbolAt start)
    (hupdate : t.update index change = .ok u) :
    u.Lists (entries.modify index f) := by
  unfold SymbolTable.update at hupdate
  split at hupdate <;> cases hupdate
  refine ⟨?_, ?_⟩
  · rw [buffer_modify hname]
    exact h.names
  · rw [← layout_modify hname hchange, ← h.entries, Array.toList_modify]

theorem mark_eq (h : t.Lists entries) :
    t.mark = ⟨entries.length, (buffer entries).utf8ByteSize⟩ := by
  rw [SymbolTable.mark, h.size_eq, SymbolTable.nameBytes, h.names]

/-- Releasing a mark cuts the list back to as many entries as there were when it was taken. -/
theorem exists_release
    {mark : Mark} (h : t.Lists (entries ++ others)) (hcount : mark.entries = entries.length)
    (hbytes : mark.nameBytes = (buffer entries).utf8ByteSize) :
    ∃ u, t.release mark = .ok () u ∧ u.Lists entries := by
  have hnames : t.names = buffer entries ++ buffer others := by rw [h.names, buffer_append]
  have hentries : (t.entries.take mark.entries).toList = layout 0 entries := by
    simp [h.entries, layout_append, hcount]
  unfold SymbolTable.release
  dsimp only
  split
  · rename_i hle
    rw [SymbolTable.nameBytes, hnames, hbytes, String.utf8ByteSize_append] at hle
    have hnone : buffer others = "" := String.utf8ByteSize_eq_zero_iff.1 (by omega)
    exact ⟨_, rfl, by simp [hnames, hnone], hentries⟩
  · have htake : Names.take? t.names mark.nameBytes = some (buffer entries) :=
      (Names.take?_eq_some_iff ..).2 ⟨buffer others, hnames, hbytes⟩
    rw [htake]
    exact ⟨_, rfl, rfl, hentries⟩

end Lists

end SymbolTable

/-! ### Views -/

/-- A kind without the types of parameters, which are entered later. -/
def Symbol.Kind.bare : Symbol.Kind → Symbol.Kind
  | .procedure exported _ => .procedure exported []
  | kind => kind

/-- A kind without what is entered later or depends on the place in the table. -/
def Symbol.Kind.outline : Symbol.Kind → Symbol.Kind
  | .procedure exported _ => .procedure exported []
  | .aliasOf _ => .aliasOf 0
  | kind => kind

/-- An entry with the outline of its kind. -/
def outlined (entry : String × Symbol.Kind) : String × Symbol.Kind :=
  (entry.1, entry.2.outline)

/-- Whether a kind carries an export mark. -/
def Symbol.Kind.exported : Symbol.Kind → Bool
  | .procedure exported _ => exported
  | .variable exported => exported
  | _ => false

/-- An entry by its name and a view of its kind. -/
def Entry.viewed (view : Symbol.Kind → Symbol.Kind) (e : Entry) : String × Symbol.Kind :=
  (e.name, view e.kind)

/-- The reserved words as the first entries of a symbol table. -/
def reservedEntries : List (String × Symbol.Kind) :=
  Keyword.all.map fun word => (word.spelling, .reserved word)

namespace SymbolTable

open Entry

/--
Releasing the mark of an earlier table cuts the list back to entries that look like those of that
table.
-/
theorem Lists.exists_release_viewed
    {t u : SymbolTable}
    {view : Symbol.Kind → Symbol.Kind}
    {all entries : List Entry}
    {mark : Mark}
    (h : t.Lists all)
    (hu : u.Lists entries)
    (hviewed : entries.map (viewed view) <+: all.map (viewed view))
    (hmark : mark = u.mark) :
    ∃ v front,
      t.release mark = .ok () v ∧
      v.Lists front ∧
      front <+: all ∧
      front.map (viewed view) = entries.map (viewed view) := by
  obtain ⟨others, hothers⟩ := hviewed
  obtain ⟨front, behind, rfl, hfront, -⟩ := List.map_eq_append_iff.1 hothers.symm
  have hbuffer : buffer front = buffer entries := by
    have hnames := congrArg (List.map Prod.fst) hfront
    simp only [List.map_map, Function.comp_def, Entry.viewed] at hnames
    rw [buffer, hnames, buffer]
  have hlength : entries.length = front.length := by
    rw [← List.length_map (f := Entry.viewed view), ← hfront, List.length_map]
  have hcount : mark.entries = front.length := by rw [hmark, hu.mark_eq, hlength]
  obtain ⟨v, hrelease, hv⟩ := h.exists_release hcount (by rw [hmark, hu.mark_eq, hbuffer])
  exact ⟨v, front, hrelease, hv, List.prefix_append front behind, hfront⟩

/-- The table is laid out as some entries that look like `shown`. -/
def Shows
    (t : SymbolTable)
    (view : Symbol.Kind → Symbol.Kind)
    (shown : List (String × Symbol.Kind)) :
    Prop :=
  ∃ entries, t.Lists entries ∧ entries.map (Entry.viewed view) = shown

namespace Shows

variable
  {t u v : SymbolTable} {view : Symbol.Kind → Symbol.Kind}
  {shown others : List (String × Symbol.Kind)}

theorem empty (limits : Limits) : (SymbolTable.empty limits).Shows view [] :=
  ⟨[], .empty limits, rfl⟩

theorem size_eq (h : t.Shows view shown) : t.size = shown.length := by
  obtain ⟨entries, hlists, rfl⟩ := h
  rw [hlists.size_eq, List.length_map]

theorem push (h : t.Shows view shown) (name : String) (kind : Symbol.Kind) (type : DataType) :
    (t.push name kind type).Shows view (shown ++ [(name, view kind)]) := by
  obtain ⟨entries, hlists, rfl⟩ := h
  exact ⟨_, hlists.push ⟨name, kind, type⟩, by simp [Entry.viewed]⟩

theorem add
    {name : String} {kind : Symbol.Kind} {type : DataType} {index : Nat} (h : t.Shows view shown)
    (hadd : t.add name kind type = .ok (index, u)) :
    index = shown.length ∧ u.Shows view (shown ++ [(name, view kind)]) := by
  obtain ⟨entries, hlists, rfl⟩ := h
  obtain ⟨hindex, hlists⟩ := hlists.add hadd
  exact ⟨by simpa using hindex, _, hlists, by simp [Entry.viewed]⟩

/-- An entry may change in what is not in view. -/
theorem update
    {change : Symbol → Symbol}
    {f : Entry → Entry}
    {index : Nat}
    (h : t.Shows view shown)
    (hname : ∀ e, (f e).name = e.name)
    (hchange : ∀ e start, change (e.symbolAt start) = (f e).symbolAt start)
    (hview : ∀ e : Entry, shown[index]? = some (e.viewed view) → (f e).viewed view = e.viewed view)
    (hupdate : t.update index change = .ok u) :
    u.Shows view shown := by
  obtain ⟨entries, hlists, rfl⟩ := h
  exact ⟨_, hlists.update hname hchange hupdate, map_modify fun e he => hview e (by simp [he])⟩

theorem setType
    {index : Nat}
    {type : DataType}
    (h : t.Shows view shown)
    (hset : t.setType index type = .ok u) :
    u.Shows view shown :=
  h.update (f := fun e => { e with type }) (fun _ => rfl) (fun _ _ => rfl) (fun _ _ => rfl) hset

/-- Entering the types of a procedure is not in view. -/
theorem setSignature
    {index : Nat}
    {name : String}
    {exported : Bool}
    {parameters : List DataType}
    {result : DataType}
    (h : t.Shows view shown)
    (hindex : shown[index]? = some (name, view (.procedure exported [])))
    (hset : t.update index
      (fun symbol =>
        { symbol with kind := .procedure exported parameters, type := result }) = .ok u)
    (hview : view (.procedure exported parameters) = view (.procedure exported [])) :
    u.Shows view shown := by
  refine h.update (f := fun e => { e with kind := .procedure exported parameters, type := result })
    (fun _ => rfl)
    (fun _ _ => rfl) (fun e he => ?_) hset
  rw [hindex, Option.some.injEq] at he
  simp only [Entry.viewed, Prod.mk.injEq] at he
  simp [Entry.viewed, hview, he.2]

/-- Releasing the mark of an earlier table shows what was shown then. -/
theorem exists_release
    {mark : Mark}
    (h : t.Shows view (shown ++ others))
    (hu : u.Shows view shown)
    (hmark : mark = u.mark) :
    ∃ v, t.release mark = .ok () v ∧ v.Shows view shown := by
  obtain ⟨all, hlists, hall⟩ := h
  obtain ⟨entries, hentries, rfl⟩ := hu
  obtain ⟨v, front, hrelease, hv, -, hfront⟩ :=
    hlists.exists_release_viewed hentries ⟨others, hall.symm⟩ hmark
  exact ⟨v, hrelease, front, hv, hfront⟩

theorem pushKeywords
    (words : List Keyword)
    (hview : ∀ word, view (.reserved word) = .reserved word)
    (h : t.Shows view shown) :
    (words.foldl (fun t word => t.push word.spelling (.reserved word) (.ofKeyword word)) t).Shows
      view (shown ++ words.map fun word => (word.spelling, .reserved word)) := by
  induction words generalizing t shown with
  | nil => simpa using h
  | cons word words ih =>
    simpa [hview] using ih (h.push word.spelling (.reserved word) (.ofKeyword word))

/-- A seeded table shows the reserved words. -/
theorem seed
    {limits : Limits} (hview : ∀ word, view (.reserved word) = .reserved word)
    (hseed : (SymbolTable.empty limits).seed = .ok () u) : u.Shows view reservedEntries := by
  rw [eq_foldl_of_addKeywords hseed]
  exact (empty limits).pushKeywords Keyword.all hview

end Shows

/-! ### Outlines -/

/-- The names of a table, each with the outline of its kind. -/
def outline (t : SymbolTable) : List (String × Symbol.Kind) :=
  t.entries.toList.filterMap fun symbol =>
    (Names.slice? t.names symbol.start (symbol.start + symbol.length)).map fun name =>
      (name, symbol.kind.outline)

theorem Lists.outline_eq {t : SymbolTable} {entries : List Entry} (h : t.Lists entries) :
    t.outline = entries.map (Entry.viewed Symbol.Kind.outline) := by
  -- The names in front of the entries that are left make up the beginning of the buffer.
  have hgeneral : ∀ (left : List Entry) (before : String), t.names = before ++ buffer left →
      (layout before.utf8ByteSize left).filterMap (fun symbol =>
        (Names.slice? t.names symbol.start (symbol.start + symbol.length)).map fun name =>
          (name, symbol.kind.outline)) =
        left.map (Entry.viewed Symbol.Kind.outline) := by
    intro left
    induction left with
    | nil => simp [layout]
    | cons e left ih =>
      intro before hnames
      have hslice : Names.slice? t.names before.utf8ByteSize
          (before.utf8ByteSize + e.name.utf8ByteSize) = some e.name :=
        (Names.slice?_eq_some_iff ..).2 ⟨before, buffer left,
          by simpa [String.append_assoc] using hnames, rfl, rfl⟩
      have hleft := ih (before ++ e.name) (by simpa [String.append_assoc] using hnames)
      rw [String.utf8ByteSize_append] at hleft
      simp [layout, symbolAt, hslice, hleft, Entry.viewed]
  rw [SymbolTable.outline, h.entries]
  exact hgeneral entries "" (by simpa using h.names)

/-- A table has the outline of what it shows. -/
theorem Shows.outline_eq
    {t : SymbolTable}
    {shown : List (String × Symbol.Kind)}
    (h : t.Shows Symbol.Kind.bare shown) :
    t.outline = shown.map outlined := by
  obtain ⟨entries, hlists, rfl⟩ := h
  have houtlined : outlined ∘ Entry.viewed Symbol.Kind.bare = Entry.viewed Symbol.Kind.outline := by
    funext e
    cases hkind : e.kind <;> simp [outlined, Entry.viewed, hkind, Symbol.Kind.bare,
      Symbol.Kind.outline]
  rw [hlists.outline_eq, List.map_map, houtlined]

end SymbolTable
end Oberon
