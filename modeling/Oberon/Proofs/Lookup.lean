import Oberon.Proofs.Listing
import Oberon.SymbolTable.Scan

/-!
# Look-ups

What the look-ups of a symbol table answer that shows a list of entries.

* an index below the number of entries is answered (`Shows.name_eq`, `Shows.exists_get`);
* a name is answered by the place of the newest entry that has it (`Shows.exists_find`);
* where only the reserved words have reserved spellings, the words of a text are told apart as they
  are by the reserved words alone (`Shows.next_eq`).
-/

namespace Oberon

namespace Entry

theorem getElem?_layout (start index : Nat) (entries : List Entry) :
    (layout start entries)[index]? =
      entries[index]?.map fun e =>
        e.symbolAt (start + (buffer (entries.take index)).utf8ByteSize) := by
  induction entries generalizing start index with
  | nil => simp [layout]
  | cons e entries ih =>
    cases index with
    | zero => simp [layout]
    | succ index => simp [layout, ih, Nat.add_assoc]

end Entry

namespace SymbolTable

open Entry

variable {t : SymbolTable}

theorem Lists.get_eq
    {entries : List Entry}
    {index : Nat}
    {e : Entry}
    (h : t.Lists entries)
    (hindex : entries[index]? = some e) :
    t.get index = .ok (e.symbolAt (buffer (entries.take index)).utf8ByteSize) := by
  have hentry : t.entries[index]? =
      some (e.symbolAt (buffer (entries.take index)).utf8ByteSize) := by
    rw [← Array.getElem?_toList, h.entries, getElem?_layout, hindex]
    simp
  rw [SymbolTable.get, hentry]

/-- An index that is answered is that of an entry. -/
theorem Lists.exists_entry
    {entries : List Entry}
    {index : Nat}
    {symbol : Symbol}
    (h : t.Lists entries)
    (hget : t.get index = .ok symbol) :
    ∃ e, entries[index]? = some e ∧ symbol.kind = e.kind ∧ symbol.type = e.type := by
  cases hentry : entries[index]? with
  | none =>
    have hnone : t.entries[index]? = none := by
      rw [← Array.getElem?_toList, h.entries, getElem?_layout, hentry]
      rfl
    simp [SymbolTable.get, hnone] at hget
  | some e =>
    rw [h.get_eq hentry] at hget
    cases hget
    exact ⟨e, rfl, rfl, rfl⟩

theorem Lists.name_eq
    {entries : List Entry}
    {index : Nat}
    {e : Entry}
    (h : t.Lists entries)
    (hindex : entries[index]? = some e) :
    t.name index = .ok e.name := by
  have hentry : t.entries[index]? =
      some (e.symbolAt (buffer (entries.take index)).utf8ByteSize) := by
    rw [← Array.getElem?_toList, h.entries, getElem?_layout, hindex]
    simp
  have hsplit : entries = entries.take index ++ e :: entries.drop (index + 1) := by
    obtain ⟨hlt, rfl⟩ := List.getElem?_eq_some_iff.1 hindex
    rw [List.getElem_cons_drop, List.take_append_drop]
  have hslice :=
    (Names.slice?_eq_some_iff t.names (buffer (entries.take index)).utf8ByteSize
      e.name.utf8ByteSize e.name).2
    ⟨buffer (entries.take index), buffer (entries.drop (index + 1)), by
      rw [h.names, String.append_assoc, ← buffer_cons, ← buffer_append, ← hsplit], rfl, rfl⟩
  rw [SymbolTable.name, hentry]
  simp [symbolAt, hslice]

/-- The place of the newest entry with a name, if there is one. -/
def Newest (shown : List (String × Symbol.Kind)) (wanted : String) : Option Nat → Prop
  | none => ∀ entry ∈ shown, entry.1 ≠ wanted
  | some index => (∃ kind, shown[index]? = some (wanted, kind)) ∧
      ∀ j entry, index < j → shown[j]? = some entry → entry.1 ≠ wanted

namespace Newest

variable {shown : List (String × Symbol.Kind)} {wanted : String}

theorem last (shown : List (String × Symbol.Kind)) (wanted : String) (kind : Symbol.Kind) :
    Newest (shown ++ [(wanted, kind)]) wanted (some shown.length) := by
  refine ⟨⟨kind, by simp⟩, fun j entry hj hentry => ?_⟩
  have hlt := (List.getElem?_eq_some_iff.1 hentry).1
  rw [List.length_append, List.length_singleton] at hlt
  omega

theorem append
    {found : Option Nat}
    {entry : String × Symbol.Kind}
    (h : Newest shown wanted found)
    (hentry : entry.1 ≠ wanted) :
    Newest (shown ++ [entry]) wanted found := by
  cases found with
  | none =>
    intro other hother
    obtain hother | hother := List.mem_append.1 hother
    · exact h other hother
    · rwa [List.mem_singleton.1 hother]
  | some index =>
    obtain ⟨⟨kind, hkind⟩, hlater⟩ := h
    refine ⟨⟨kind, by rw [List.getElem?_append_left (List.getElem?_eq_some_iff.1 hkind).1, hkind]⟩,
      ?_⟩
    intro j other hj hother
    rw [List.getElem?_append] at hother
    split at hother
    · exact hlater j other hj hother
    · rwa [List.mem_singleton.1 (List.mem_of_getElem? hother)]

end Newest

namespace Shows

variable
  {view : Symbol.Kind → Symbol.Kind} {shown : List (String × Symbol.Kind)} {index : Nat}
  {name : String}
  {kind : Symbol.Kind}

theorem name_eq (h : t.Shows view shown) (hindex : shown[index]? = some (name, kind)) :
    t.name index = .ok name := by
  obtain ⟨entries, hlists, rfl⟩ := h
  rw [List.getElem?_map, Option.map_eq_some_iff] at hindex
  obtain ⟨e, he, hviewed⟩ := hindex
  rw [hlists.name_eq he, ← (Prod.mk.inj hviewed).1]

theorem exists_get (h : t.Shows view shown) (hindex : shown[index]? = some (name, kind)) :
    ∃ symbol, t.get index = .ok symbol ∧ view symbol.kind = kind := by
  obtain ⟨entries, hlists, rfl⟩ := h
  rw [List.getElem?_map, Option.map_eq_some_iff] at hindex
  obtain ⟨e, he, hviewed⟩ := hindex
  exact ⟨_, hlists.get_eq he, (Prod.mk.inj hviewed).2⟩

/-- A table shows one list only. -/
theorem unique
    {others : List (String × Symbol.Kind)}
    (h : t.Shows view shown)
    (hothers : t.Shows view others) :
    shown = others := by
  have hlength : shown.length = others.length := h.size_eq.symm.trans hothers.size_eq
  refine List.ext_getElem hlength fun i hi hi' => Prod.ext ?_ ?_
  · have hname := h.name_eq (List.getElem?_eq_getElem hi)
    rw [hothers.name_eq (List.getElem?_eq_getElem hi')] at hname
    exact (Except.ok.inj hname).symm
  · obtain ⟨symbol, hget, hkind⟩ := h.exists_get (List.getElem?_eq_getElem hi)
    obtain ⟨symbol', hget', hkind'⟩ := hothers.exists_get (List.getElem?_eq_getElem hi')
    obtain rfl := Except.ok.inj (hget.symm.trans hget')
    exact hkind.symm.trans hkind'

theorem exists_findBelow
    (h : t.Shows view shown) (wanted : String) (count : Nat) (hcount : count ≤ shown.length) :
    ∃ found, t.findBelow wanted count = .ok found ∧ Newest (shown.take count) wanted found := by
  induction count with
  | zero => exact ⟨none, rfl, by simp [Newest]⟩
  | succ count ih =>
    obtain ⟨found, hfound, hnewest⟩ := ih (by omega)
    have hindex : shown[count]? = some (shown[count].1, shown[count].2) :=
      List.getElem?_eq_getElem (by omega)
    rw [findBelow, h.name_eq hindex]
    dsimp only
    rw [List.take_add_one, hindex, Option.toList_some]
    split
    · rename_i hname
      have hlength : (shown.take count).length = count := List.length_take_of_le (by omega)
      have hlast := Newest.last (shown.take count) wanted shown[count].2
      rw [hlength] at hlast
      exact ⟨some count, rfl, by rwa [hname]⟩
    · rename_i hname
      exact ⟨found, hfound, hnewest.append hname⟩

/-- A name is always looked up, and found at its newest entry. -/
theorem exists_find (h : t.Shows view shown) (wanted : String) :
    ∃ found, t.find wanted = .ok found ∧ Newest shown wanted found := by
  obtain ⟨found, hfound, hnewest⟩ := h.exists_findBelow wanted t.size (by rw [h.size_eq])
  rw [h.size_eq, List.take_length] at hnewest
  exact ⟨found, hfound, hnewest⟩

theorem newest
    (h : t.Shows view shown)
    {wanted : String}
    {found : Option Nat}
    (hfind : t.find wanted = .ok found) :
    Newest shown wanted found := by
  obtain ⟨found', hfind', hnewest⟩ := h.exists_find wanted
  rw [hfind] at hfind'
  cases hfind'
  exact hnewest

end Shows

end SymbolTable

/-! ### Reserved words -/

theorem Keyword.ofSpelling?_spelling (word : Keyword) : ofSpelling? word.spelling = some word := by
  cases word <;> decide +kernel

theorem Keyword.spelling_of_ofSpelling?
    {text : String} {word : Keyword} (h : ofSpelling? text = some word) :
    word.spelling = text := by
  simpa using List.find?_some h

@[simp] theorem length_reservedEntries : reservedEntries.length = 43 := rfl

theorem reservedEntries_spec {entry : String × Symbol.Kind} (h : entry ∈ reservedEntries) :
    ∃ word : Keyword, entry = (word.spelling, .reserved word) := by
  obtain ⟨word, -, rfl⟩ := List.mem_map.1 h
  exact ⟨word, rfl⟩

/-- An entry that neither is a reserved word nor has the spelling of one. -/
def Unreserved (entry : String × Symbol.Kind) : Prop :=
  Keyword.ofSpelling? entry.1 = none ∧ ∀ word, entry.2 ≠ .reserved word

namespace SymbolTable

variable {t : SymbolTable} {others : List (String × Symbol.Kind)}

/--
Behind the reserved words, entries that are not reserved leave every word to be told as by its
spelling.
-/
theorem Shows.keyword?_eq
    (h : t.Shows Symbol.Kind.bare (reservedEntries ++ others))
    (hothers : ∀ entry ∈ others, Unreserved entry)
    (wanted : String) :
    t.keyword? wanted = .ok (Keyword.ofSpelling? wanted) := by
  obtain ⟨found, hfind, hnewest⟩ := h.exists_find wanted
  rw [keyword?, hfind]
  cases found with
  | none =>
    have hnone : Keyword.ofSpelling? wanted = none := by
      cases hword : Keyword.ofSpelling? wanted with
      | none => rfl
      | some word =>
        have hmem : (word.spelling, Symbol.Kind.reserved word) ∈ reservedEntries ++ others :=
          List.mem_append_left _ (List.mem_map_of_mem (Keyword.mem_all word))
        exact absurd (Keyword.spelling_of_ofSpelling? hword) (hnewest _ hmem)
    rw [hnone]
  | some index =>
    obtain ⟨⟨kind, hindex⟩, -⟩ := hnewest
    obtain ⟨symbol, hget, hkind⟩ := h.exists_get hindex
    dsimp only
    rw [hget]
    obtain hmem | hmem := List.mem_append.1 (List.mem_of_getElem? hindex)
    · obtain ⟨word, hword⟩ := reservedEntries_spec hmem
      obtain ⟨rfl, rfl⟩ := Prod.mk.inj hword
      have hsymbol : symbol.kind = .reserved word := by
        cases hcase : symbol.kind <;> rw [hcase] at hkind <;> cases hkind
        rfl
      simp [hsymbol, Keyword.ofSpelling?_spelling]
    · obtain ⟨hspelling, hreserved⟩ := hothers _ hmem
      rw [show Keyword.ofSpelling? wanted = none from hspelling]
      cases hcase : symbol.kind with
      | reserved word =>
        rw [hcase] at hkind
        exact absurd hkind.symm (hreserved word)
      | _ => simp [hcase]

/-- The table of the reserved words shows them. -/
theorem shows_reserved : reserved.Shows Symbol.Kind.bare reservedEntries :=
  (Shows.empty .largest).pushKeywords Keyword.all fun _ => rfl

/-- Tokens are classified as by the reserved words alone. -/
theorem Shows.next_eq
    (h : t.Shows Symbol.Kind.bare (reservedEntries ++ others))
    (hothers : ∀ entry ∈ others, Unreserved entry)
    (c : Cursor) :
    c.next t = c.next reserved := by
  have hreserved : reserved.Shows Symbol.Kind.bare (reservedEntries ++ []) := by
    simpa using shows_reserved
  unfold Cursor.next
  simp only [h.keyword?_eq hothers, hreserved.keyword?_eq (by simp)]

end SymbolTable

/-! ### Tokens by the reserved words alone -/

/-- Telling the reserved words apart does not touch the end of the source. -/
theorem Token.kind_classify_eq_eof_iff {reserved : String → Option Keyword} (t : Token) :
    (t.classify reserved).kind = .eof ↔ t.kind = .eof := by
  unfold classify
  split
  · rename_i hkind
    rw [hkind]
    cases hword : reserved t.lexeme with
    | none => simp [reserve, hkind]
    | some word => cases word <;> simp [reserve]
  · rfl

namespace Cursor

/-- The reserved words tell the tokens of a text apart by their spelling. -/
theorem next_reserved (c : Cursor) :
    c.next .reserved = match c.read with
      | (.error e, behind) => .error (.malformed e) behind
      | (.ok t, behind) => .ok (t.classify Keyword.ofSpelling?) behind := by
  have hreserved : SymbolTable.reserved.Shows Symbol.Kind.bare (reservedEntries ++ []) := by
    simpa using SymbolTable.shows_reserved
  unfold next Token.classify
  obtain ⟨outcome, behind⟩ := c.read
  cases outcome with
  | error e => rfl
  | ok t =>
    dsimp only
    rw [hreserved.keyword?_eq (by simp)]
    split <;> rfl

theorem exists_read_of_next_reserved
    {c cursor : Cursor} {token : Token} (h : c.next .reserved = .ok token cursor) :
    ∃ t, c.read = (.ok t, cursor) ∧ token = t.classify Keyword.ofSpelling? := by
  rw [next_reserved] at h
  split at h
  · cases h
  · rename_i t next hread
    cases h
    exact ⟨t, hread, rfl⟩

theorem tokens_of_read
    {c next : Cursor}
    {t : Token}
    (reserved : String → Option Keyword)
    (h : c.read = (.ok t, next)) :
    c.tokens reserved =
      if t.kind = .eof then .ok [t] else (next.tokens reserved).map (t.classify reserved :: ·) := by
  rw [tokens]
  split
  · rename_i hread
    rw [h] at hread
    cases hread
  · rename_i hread
    rw [h] at hread
    cases hread
    split
    · rfl
    · cases next.tokens reserved <;> rfl

end Cursor
end Oberon
