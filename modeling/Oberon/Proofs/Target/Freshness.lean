import Oberon.Proofs.Lexical.Printing
import Oberon.Proofs.Target.Hygiene

/-!
# Fresh names

The names of a compiled text are put together from identifiers of sources and underscores.  Nothing
is escaped, so that names of different modules are told apart, and from the names that the compiler
adds, only by what the scanner lets into an identifier.

**Reserved words.**  Once a table is seeded, each reserved word is told by its spelling, whatever
the table held before and whatever else is declared behind it (`Seeded.tells`): a newer entry hides
older ones of its own name only.

**Identifiers.**  Against seeded tables the scanner delivers the texts that start with a letter, go
on with letters and digits and are not reserved, and no others (`isIdentifier_iff`).

**Main result.**  `mangled_names_fresh`: a mangled name comes from one module and one name only, and
is neither a shift macro nor an initializer nor the flag of one, of whatever module.
-/

namespace Oberon

theorem Keyword.spelling_injective : Function.Injective spelling := by
  intro first second h
  have hwords := congrArg ofSpelling? h
  simpa [ofSpelling?_spelling] using hwords

theorem Names.slice?_append
    {names text : String}
    {start length : Nat}
    (h : slice? names start (start + length) = some text)
    (more : String) :
    slice? (names ++ more) start (start + length) = some text := by
  obtain ⟨before, behind, rfl, hstart, hlength⟩ := (slice?_eq_some_iff ..).1 h
  exact (slice?_eq_some_iff ..).2 ⟨before, behind ++ more, String.append_assoc, hstart, hlength⟩

/-! ### Look-ups behind a new entry -/

namespace SymbolTable

variable
  {t u : SymbolTable} {name wanted : String} {kind : Symbol.Kind} {type : DataType} {index : Nat}

theorem getElem?_push_of_some {symbol : Symbol} (h : t.entries[index]? = some symbol) :
    (t.push name kind type).entries[index]? = some symbol := by
  obtain ⟨hlt, -⟩ := Array.getElem?_eq_some_iff.1 h
  rw [push, Array.getElem?_push_lt hlt, ← Array.getElem?_eq_getElem hlt, h]

theorem getElem?_push_size :
    (t.push name kind type).entries[t.size]? =
      some ⟨t.nameBytes, name.utf8ByteSize, kind, type⟩ := by
  simp [push, size]

/-- A name that is in place stays in place. -/
theorem name_push {text : String} (h : t.name index = .ok text) :
    (t.push name kind type).name index = .ok text := by
  unfold SymbolTable.name at h
  split at h
  · cases h
  · rename_i symbol hsymbol
    split at h
    · rename_i hslice
      cases h
      have hgrown : Names.slice? (t.push name kind type).names symbol.start
          (symbol.start + symbol.length) =
          some text :=
        Names.slice?_append hslice name
      simp [SymbolTable.name, getElem?_push_of_some hsymbol, hgrown]
    · cases h

theorem name_push_size : (t.push name kind type).name t.size = .ok name := by
  have hslice : Names.slice? (t.push name kind type).names t.nameBytes
      (t.nameBytes + name.utf8ByteSize) =
      some name :=
    (Names.slice?_eq_some_iff ..).2 ⟨t.names, "", by simp [push], rfl, rfl⟩
  simp [SymbolTable.name, getElem?_push_size, hslice]

/-- Names that were read on the way to an entry are read again. -/
theorem findBelow_push {count : Nat} (h : t.findBelow wanted count = .ok (some index)) :
    (t.push name kind type).findBelow wanted count = .ok (some index) := by
  induction count with
  | zero => cases h
  | succ count ih =>
    rw [findBelow] at h ⊢
    split at h
    · cases h
    · rename_i text htext
      rw [name_push htext]
      dsimp only
      split at h
      · rename_i heq
        rwa [if_pos heq]
      · rename_i hne
        rw [if_neg hne]
        exact ih h

theorem find_push :
    (t.push name kind type).find wanted =
      if name = wanted then .ok (some t.size)
        else (t.push name kind type).findBelow wanted t.size := by
  have hsize : (t.push name kind type).size = t.size + 1 := by simp [push, size]
  rw [find, hsize, findBelow, name_push_size]

/-- A reserved word is found where the newest entry of the name is one. -/
theorem keyword?_eq_some_iff {word : Keyword} :
    t.keyword? wanted = .ok (some word) ↔
      ∃ index symbol,
        t.find wanted = .ok (some index) ∧
        t.entries[index]? = some symbol ∧
        symbol.kind = .reserved word := by
  unfold keyword? get
  constructor
  · intro h
    split at h
    · cases h
    · cases h
    · rename_i index hfind
      cases hentry : t.entries[index]? with
      | none => simp [hentry] at h
      | some symbol =>
        refine ⟨index, symbol, hfind, hentry, ?_⟩
        cases hkind : symbol.kind <;> simp [hentry, hkind] at h
        rw [h]
  · rintro ⟨index, symbol, hfind, hentry, hkind⟩
    simp [hfind, hentry, hkind]

/-! ### Seeding -/

/-- The table tells the reserved word by its spelling. -/
def Tells (t : SymbolTable) (word : Keyword) : Prop := t.keyword? word.spelling = .ok (some word)

/-- Another name does not hide a reserved word. -/
theorem Tells.push
    {word : Keyword} (h : t.Tells word) (hname : name ≠ word.spelling) :
    (t.push name kind type).Tells word := by
  obtain ⟨index, symbol, hfind, hentry, hkind⟩ := keyword?_eq_some_iff.1 h
  refine keyword?_eq_some_iff.2 ⟨index, symbol, ?_, getElem?_push_of_some hentry, hkind⟩
  rw [find_push, if_neg hname]
  exact findBelow_push hfind

theorem tells_push (t : SymbolTable) (word : Keyword) (type : DataType) :
    (t.push word.spelling (.reserved word) type).Tells word := by
  have hfind : (t.push word.spelling (.reserved word) type).find word.spelling =
      .ok (some t.size) := by
    rw [find_push, if_pos rfl]
  exact keyword?_eq_some_iff.2 ⟨t.size, _, hfind, getElem?_push_size, rfl⟩

/-- Words that are appended are told, and so are those that were told before. -/
theorem tells_pushKeywords
    {words : List Keyword} {word : Keyword} (h : word ∈ words ∨ t.Tells word) :
    (words.foldl (fun t word => t.push word.spelling (.reserved word) (.ofKeyword word)) t).Tells
      word := by
  induction words generalizing t with
  | nil => simpa using h
  | cons added words ih =>
    refine ih ?_
    by_cases hadded : added = word
    · subst hadded
      exact Or.inr (t.tells_push added _)
    · obtain hword | htold := h
      · exact Or.inl (List.mem_of_ne_of_mem (Ne.symm hadded) hword)
      · exact Or.inr (htold.push fun hspelling => hadded (Keyword.spelling_injective hspelling))

end SymbolTable

open Compilation in
/--
The reserved words are in the table, and none has been declared anew, which would hide it.  These
are the tables that the scanner is given.
-/
inductive SymbolTable.Seeded : SymbolTable → Prop
  /-- The reserved words alone. -/
  | reserved : Seeded .reserved
  /-- Any table right after the reserved words have been appended to it. -/
  | seed {before t : SymbolTable} (h : before.seed = .ok () t) : Seeded t
  /-- A seeded table with one more name that is not reserved. -/
  | declare
      {t u : SymbolTable}
      {name : String}
      {kind : Symbol.Kind}
      {type : DataType}
      {index : Nat}
      (ht : Seeded t)
      (hname : Keyword.ofSpelling? name = none)
      (h : t.add name kind type = .ok (index, u)) :
      Seeded u
  /-- The table of any moment of a compilation, inside procedures and behind them. -/
  | moment {source header : String} {limits : Limits} {start s : State} {moment : Option Ask}
      (hstart : State.start source limits = .ok start)
      (h : (wholeModule header).Comes (start.remaining + 1) start moment s) : Seeded s.symbols

open Compilation in
/-- What a table held before it was seeded does not matter, nor does what is declared later. -/
theorem SymbolTable.Seeded.tells
    {t : SymbolTable} (h : t.Seeded) (word : Keyword) :
    t.Tells word := by
  induction h with
  | reserved => exact tells_pushKeywords (Or.inl word.mem_all)
  | seed h =>
    rw [eq_foldl_of_addKeywords h]
    exact tells_pushKeywords (Or.inl word.mem_all)
  | declare _ hname h ih =>
    rw [(eq_push_of_add h).2]
    refine ih.push ?_
    rintro rfl
    rw [Keyword.ofSpelling?_spelling] at hname
    cases hname
  | @moment source header limits start s moment hstart h =>
    obtain ⟨owner, outer, inner, hs⟩ : s.Orderly :=
      ((@honors_wholeModule reservedEntries (start.remaining + 1) header).comes
        (start_spec hstart).1 h).1
    rw [Tells, hs.keyword?_eq, Keyword.ofSpelling?_spelling]

/-! ### Identifiers -/

/--
The scanner can deliver the lexeme as an identifier, at some place in some text, against a seeded
table.
-/
def IsIdentifier (lexeme : String) : Prop :=
  ∃ (t : SymbolTable) (c d : Cursor) (position : Position),
    t.Seeded ∧ c.next t = .ok ⟨.identifier, position, lexeme⟩ d

theorem Token.eq_none_of_kind_reserve
    {t : Token} {word : Option Keyword} (h : (t.reserve word).kind = .identifier) :
    word = none := by
  unfold reserve at h
  split at h
  · rfl
  all_goals cases h

/-- An identifier is delivered as it is read, and the table knows no reserved word of its name. -/
theorem Cursor.read_of_next_identifier
    {t : SymbolTable}
    {c d : Cursor}
    {token : Token}
    (h : c.next t = .ok token d)
    (hkind : token.kind = .identifier) :
    c.read = (.ok token, d) ∧ t.keyword? token.lexeme = .ok none := by
  unfold Cursor.next at h
  split at h
  · cases h
  · rename_i found behind hread
    split at h
    · split at h
      · cases h
      · rename_i word hword
        cases h
        obtain rfl := Token.eq_none_of_kind_reserve hkind
        exact ⟨hread, hword⟩
    · rename_i hother
      cases h
      exact absurd hkind hother

/-- Against a seeded table, identifiers are names that are not reserved. -/
theorem SymbolTable.Seeded.fits_of_next
    {t : SymbolTable} {c d : Cursor} {token : Token} (ht : t.Seeded) (h : c.next t = .ok token d)
    (hkind : token.kind = .identifier) : Token.Fits .identifier token.lexeme := by
  obtain ⟨hread, hword⟩ := Cursor.read_of_next_identifier h hkind
  have hfree : Keyword.ofSpelling? token.lexeme = none := by
    cases hcase : Keyword.ofSpelling? token.lexeme with
    | none => rfl
    | some word =>
      rw [← Keyword.spelling_of_ofSpelling? hcase, ht.tells word] at hword
      cases hword
  have hclassify : token.classify Keyword.ofSpelling? = token := by
    simp [Token.classify, hfree, Token.reserve]
  have hfits := Lexical.wellFormed_of_read hread (by simp [hkind])
  rwa [hclassify, Token.WellFormed, hkind] at hfits

/-- The identifiers are the names of the lexical grammar that are not reserved. -/
theorem isIdentifier_iff {lexeme : String} :
    IsIdentifier lexeme ↔ Token.Fits .identifier lexeme := by
  constructor
  · rintro ⟨t, c, d, position, ht, hnext⟩
    exact ht.fits_of_next hnext rfl
  · intro hfits
    obtain ⟨raw, hraw⟩ := Lexical.exists_raw_of_fits hfits
    -- The text of the name is a source of its own.
    have hbody : (Cursor.ofText (String.ofList raw.text)).body = raw.text ++ [] := by
      have hsplit := raw.split_text_append Lexical.delimited_nil
      simp only [List.append_nil] at hsplit
      simp [Cursor.body, Cursor.ofText, hsplit]
    obtain ⟨found, behind, hread, hfound, -⟩ :=
      Lexical.exists_read_of_body hbody Lexical.delimited_nil
    have hcontent : (found.classify Keyword.ofSpelling?).content = (.identifier, lexeme) :=
      (raw.content_classify hfound).trans hraw
    obtain ⟨hkind, hlexeme⟩ := Prod.mk.inj hcontent
    refine ⟨.reserved, .ofText (String.ofList raw.text), behind,
      (found.classify Keyword.ofSpelling?).position, .reserved, ?_⟩
    rw [Cursor.next_reserved, hread, ← hkind, ← hlexeme]

theorem IsIdentifier.alphanumeric {lexeme : String} (h : IsIdentifier lexeme) :
    Alphanumeric lexeme.toList := by
  obtain ⟨⟨name, rfl⟩, -⟩ := isIdentifier_iff.1 h
  simpa [Alphanumeric] using Lexical.Name.isAlphanum_text name

theorem IsIdentifier.ne_spelling
    {lexeme : String} (h : IsIdentifier lexeme) (word : Keyword) :
    lexeme ≠ word.spelling := by
  rintro rfl
  have hfree := (isIdentifier_iff.1 h).2
  rw [Keyword.ofSpelling?_spelling] at hfree
  cases hfree

/-! ### Mangled names -/

open Target Grammar

variable {module name other own third : String}

/-- A module and a name are read off the mangled name at its underscore. -/
theorem mangle_eq_mangle_iff
    (hmodule : Alphanumeric module.toList) (hother : Alphanumeric other.toList) :
    mangle module name = mangle other own ↔ module = other ∧ name = own := by
  constructor
  · intro h
    have hfront : OfModule module (mangle other own) := by
      rw [← h]
      exact (ofModule_mangle_iff hmodule hmodule).2 rfl
    obtain rfl := (ofModule_mangle_iff hmodule hother).1 hfront
    exact ⟨rfl, mangle_injective other h⟩
  · rintro ⟨rfl, rfl⟩
    rfl

/--
The shift macro has the name that a variable would have, if it could be called like the reserved
word.
-/
theorem shiftMacro_eq_mangle (module : String) :
    shiftMacro module = mangle module Keyword.ASH.spelling := by
  simp [shiftMacro, mangle, Keyword.spelling, String.append_assoc]

/--
Mangled names never clash.  Whatever identifiers the scanner delivers, two mangled names are the
same only for the same module and the same name, and no mangled name is the shift macro, the
initializer or the initializer's flag of any module.
-/
theorem mangled_names_fresh
    (hmodule : IsIdentifier module)
    (hname : IsIdentifier name)
    (hother : IsIdentifier other)
    (hthird : IsIdentifier third) :
    (mangle module name = mangle other own ↔ module = other ∧ name = own) ∧
    mangle module name ≠ shiftMacro third ∧
    mangle module name ≠ initializer third ∧
    mangle module name ≠ initialized third := by
  refine ⟨mangle_eq_mangle_iff hmodule.alphanumeric hother.alphanumeric, ?_,
    Grammar.Module.mangle_ne_initializer hmodule.alphanumeric hname.alphanumeric
      hthird.alphanumeric⟩
  rw [shiftMacro_eq_mangle, Ne, mangle_eq_mangle_iff hmodule.alphanumeric hthird.alphanumeric]
  rintro ⟨-, hspelling⟩
  exact hname.ne_spelling .ASH hspelling

/-- Three names that differ only in where their underscores stand. -/
theorem mangled_names_fresh_minit :
    (IsIdentifier "mod" ∧ IsIdentifier "Minit" ∧ IsIdentifier "modM" ∧ IsIdentifier "M") ∧
      (mangle "mod" "Minit" = mangle "modM" "init" ↔ "mod" = "modM" ∧ "Minit" = "init") ∧
      mangle "mod" "Minit" ≠ shiftMacro "M" ∧
      mangle "mod" "Minit" ≠ initializer "M" ∧ mangle "mod" "Minit" ≠ initialized "M" := by
  have hmod : IsIdentifier "mod" :=
    isIdentifier_iff.2 ⟨⟨⟨'m', ['o', 'd'], rfl, by simp⟩, rfl⟩, by decide +kernel⟩
  have hminit : IsIdentifier "Minit" :=
    isIdentifier_iff.2 ⟨⟨⟨'M', ['i', 'n', 'i', 't'], rfl, by simp⟩, rfl⟩, by decide +kernel⟩
  have hmodM : IsIdentifier "modM" :=
    isIdentifier_iff.2 ⟨⟨⟨'m', ['o', 'd', 'M'], rfl, by simp⟩, rfl⟩, by decide +kernel⟩
  have hM : IsIdentifier "M" :=
    isIdentifier_iff.2 ⟨⟨⟨'M', [], rfl, by simp⟩, rfl⟩, by decide +kernel⟩
  exact ⟨⟨hmod, hminit, hmodM, hM⟩, mangled_names_fresh hmod hminit hmodM hM⟩

end Oberon
