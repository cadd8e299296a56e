import Oberon.Proofs.Lookup

/-!
# Symbol tables as stacks of entries

A symbol table in use is called again and again: names are declared and looked up, types are
entered, marks are taken and released.  A stack of entries is a plain list of names with their kinds
and types, together with the list as it was at each mark.

**Discipline.**  A mark may be released while it is outstanding.  Releasing it retires it and all
marks that were taken behind it.

**Main statement.**  `observe_eq_of_disciplined`: as long as marks are released in this way, nothing
that a symbol table answers tells it from the stack of entries.  Out of order, a release can cut
through a name that is still in use.
-/

namespace Oberon

/-- A symbol without its type. -/
def Symbol.untyped (symbol : Symbol) : Nat × Nat × Symbol.Kind :=
  (symbol.start, symbol.length, symbol.kind)

namespace SymbolTable

open Entry

/-! ### Calls and answers -/

/-- A call on a symbol table; a mark goes by its number in the order in which marks are taken. -/
inductive Call
  | add (name : String) (kind : Symbol.Kind) (type : DataType)
  | find (wanted : String)
  | get (index : Nat)
  | name (index : Nat)
  | resolve (index : Nat)
  | setType (index : Nat) (type : DataType)
  | mark
  | release (number : Nat)

/-- What a call answers. -/
inductive Answer
  | done
  | added (index : Nat)
  | full (error : LimitError)
  | found (index : Option Nat)
  | symbol (kind : Symbol.Kind) (type : DataType)
  | text (name : String)
  | resolved (index : Nat)
  | fault (fault : Fault)
  /-- No mark has the number. -/
  | noMark
  deriving DecidableEq

/-- What can be seen of a call: its answer, and how full the table is afterwards. -/
structure Observation where
  answer : Answer
  size : Nat
  nameBytes : Nat
  deriving DecidableEq

namespace Call

/-- The index of the entry that a call is about. -/
def index? : Call → Option Nat
  | get index => some index
  | name index => some index
  | resolve index => some index
  | setType index _ => some index
  | _ => none

/-- Only outstanding marks are released. -/
def allowed (outstanding : List Nat) : Call → Bool
  | release number => number ∈ outstanding
  | _ => true

/-- The outstanding marks behind a call, if `taken` marks were taken in front of it. -/
def outstanding (taken : Nat) (before : List Nat) : Call → List Nat
  | mark => before ++ [taken]
  | release number => before.filter (· < number)
  | _ => before

/-- The number of marks taken behind a call. -/
def taken (before : Nat) : Call → Nat
  | mark => before + 1
  | _ => before

end Call

/-- Every mark that is released is outstanding. -/
def disciplined : Nat → List Nat → List Call → Bool
  | _, _, [] => true
  | taken, outstanding, call :: calls =>
    call.allowed outstanding &&
      disciplined (call.taken taken) (call.outstanding taken outstanding) calls

/-- Something that answers calls. -/
structure Machine (σ : Type) where
  call : σ → Call → Answer × σ
  size : σ → Nat
  nameBytes : σ → Nat

namespace Machine

variable {σ : Type} (machine : Machine σ)

/-- The state behind calls. -/
def after (s : σ) (calls : List Call) : σ :=
  calls.foldl (fun s call => (machine.call s call).2) s

/-- What can be seen of calls. -/
def observe (s : σ) : List Call → List Observation
  | [] => []
  | call :: calls =>
    let (answer, next) := machine.call s call
    ⟨answer, machine.size next, machine.nameBytes next⟩ :: observe next calls

end Machine

/-! ### The two machines -/

/-- A symbol table with the marks that were taken of it, oldest first. -/
structure Session where
  table : SymbolTable
  taken : List Mark

/-- An answer or a fault. -/
def Answer.ofExcept {α : Type} (answer : α → Answer) : Except Fault α → Answer
  | .ok a => answer a
  | .error error => fault error

def Session.start (limits : Limits) : Session := ⟨.empty limits, []⟩

def Session.call (s : Session) : Call → Answer × Session
  | .add name kind type =>
    match s.table.add name kind type with
    | .ok (index, table) => (.added index, { s with table })
    | .error error => (.full error, s)
  | .find wanted => (.ofExcept .found (s.table.find wanted), s)
  | .get index => (.ofExcept (fun symbol => .symbol symbol.kind symbol.type) (s.table.get index), s)
  | .name index => (.ofExcept .text (s.table.name index), s)
  | .resolve index => (.ofExcept .resolved (s.table.resolve index), s)
  | .setType index type =>
    match s.table.setType index type with
    | .ok table => (.done, { s with table })
    | .error error => (.fault error, s)
  | .mark => (.done, { s with taken := s.taken ++ [s.table.mark] })
  | .release number =>
    match s.taken[number]? with
    | none => (.noMark, s)
    | some mark =>
      match s.table.release mark with
      | .ok () table => (.done, { s with table })
      | .error error table => (.fault error, { s with table })

/-- Symbol tables answer calls. -/
def table : Machine Session := ⟨Session.call, (·.table.size), (·.table.nameBytes)⟩

/-- A list of entries with the lists that it was at each mark, oldest first. -/
structure Stack where
  entries : List Entry
  saved : List (List Entry)

namespace Stack

def start : Stack := ⟨[], []⟩

/-- The bytes of all names. -/
def nameBytes (s : Stack) : Nat :=
  (s.entries.map (·.name.utf8ByteSize)).sum

/-- The greatest index of an entry with a name. -/
def greatest (s : Stack) (wanted : String) : Option Nat :=
  ((List.range s.entries.length).filter fun index => s.entries[index]?.map Entry.name =
    some wanted).max?

/-- The answer about an entry; an index behind the last entry is dead. -/
def about (s : Stack) (index : Nat) (answer : Entry → Answer) : Answer :=
  match s.entries[index]? with
  | some e => answer e
  | none => .fault (.deadEntry index)

/-- A type is entered in the list and in what is saved of it. -/
def setType (s : Stack) (index : Nat) (type : DataType) : Stack where
  entries := s.entries.modify index fun e => { e with type }
  saved := s.saved.map (·.modify index fun e => { e with type })

def call (limits : Limits) (s : Stack) : Call → Answer × Stack
  | .add name kind type =>
    if limits.symbols ≤ s.entries.length then (.full .symbols, s)
    else if limits.nameBytes ≤ s.nameBytes + name.utf8ByteSize then (.full .nameBytes, s)
    else (.added s.entries.length, { s with entries := s.entries ++ [⟨name, kind, type⟩] })
  | .find wanted => (.found (s.greatest wanted), s)
  | .get index => (s.about index fun e => .symbol e.kind e.type, s)
  | .name index => (s.about index fun e => .text e.name, s)
  | .resolve index =>
    (s.about index fun e => match e.kind with
      | .aliasOf target => .resolved target
      | _ => .resolved index, s)
  | .setType index type =>
    if index < s.entries.length then (.done, s.setType index type)
      else (.fault (.deadEntry index), s)
  | .mark => (.done, { s with saved := s.saved ++ [s.entries] })
  | .release number =>
    match s.saved[number]? with
    | none => (.noMark, s)
    | some entries => (.done, { s with entries })

end Stack

/-- Stacks of entries answer calls. -/
def stack (limits : Limits) :
    Machine Stack :=
  ⟨Stack.call limits, (·.entries.length), Stack.nameBytes⟩

/-! ### Tables laid out as lists -/

/-- The mark of a table that is laid out as a list. -/
def markOf (entries : List Entry) : Mark := ⟨entries.length, (buffer entries).utf8ByteSize⟩

namespace Lists

variable {t : SymbolTable} {entries : List Entry}

theorem nameBytes_eq (h : t.Lists entries) :
    t.nameBytes = (entries.map (·.name.utf8ByteSize)).sum := by
  rw [SymbolTable.nameBytes, h.names]
  clear h
  induction entries with
  | nil => rfl
  | cons e entries ih =>
    rw [buffer_cons, String.utf8ByteSize_append, ih, List.map_cons, List.sum_cons]

theorem getElem?_eq_none {index : Nat} (h : t.Lists entries) (hindex : entries[index]? = none) :
    t.entries[index]? = none := by
  rw [← Array.getElem?_toList, h.entries, getElem?_layout, hindex, Option.map_none]

/-- A table has an entry's symbol where the list has the entry. -/
theorem ofExcept_get
    (h : t.Lists entries)
    (saved : List (List Entry))
    (index : Nat)
    (answer : Symbol.Kind → DataType → Answer) :
    Answer.ofExcept (fun symbol => answer symbol.kind symbol.type) (t.get index) =
      Stack.about ⟨entries, saved⟩ index fun e => answer e.kind e.type := by
  unfold Stack.about
  cases hindex : entries[index]? with
  | none => simp [SymbolTable.get, h.getElem?_eq_none hindex, Answer.ofExcept]
  | some e => simp [h.get_eq hindex, Answer.ofExcept, symbolAt]

theorem ofExcept_name
    (h : t.Lists entries) (saved : List (List Entry)) (index : Nat) :
    Answer.ofExcept .text (t.name index) =
      Stack.about ⟨entries, saved⟩ index fun e => .text e.name := by
  unfold Stack.about
  cases hindex : entries[index]? with
  | none => simp [SymbolTable.name, h.getElem?_eq_none hindex, Answer.ofExcept]
  | some e => simp [h.name_eq hindex, Answer.ofExcept]

theorem ofExcept_resolve (h : t.Lists entries) (saved : List (List Entry)) (index : Nat) :
    Answer.ofExcept .resolved (t.resolve index) =
      Stack.about ⟨entries, saved⟩ index fun e => match e.kind with
        | .aliasOf target => .resolved target
        | _ => .resolved index := by
  unfold Stack.about SymbolTable.resolve
  cases hindex : entries[index]? with
  | none => simp [SymbolTable.get, h.getElem?_eq_none hindex, Answer.ofExcept]
  | some e => cases hkind : e.kind <;> simp [h.get_eq hindex, Answer.ofExcept, symbolAt, hkind]

/-- A look-up answers the greatest index of the name. -/
theorem find_eq (h : t.Lists entries) (saved : List (List Entry)) (wanted : String) :
    t.find wanted = .ok (Stack.greatest ⟨entries, saved⟩ wanted) := by
  have hshows : t.Shows id (entries.map (viewed id)) := ⟨entries, h, rfl⟩
  obtain ⟨found, hfind, hnewest⟩ := hshows.exists_find wanted
  rw [hfind]
  congr 1
  unfold Stack.greatest
  symm
  cases found with
  | none =>
    rw [List.max?_eq_none_iff, List.filter_eq_nil_iff]
    intro index _ hindex
    obtain ⟨e, he, hname⟩ := Option.map_eq_some_iff.1 (of_decide_eq_true hindex)
    exact hnewest _ (List.mem_map_of_mem (List.mem_of_getElem? he)) hname
  | some index =>
    obtain ⟨⟨kind, hindex⟩, hlater⟩ := hnewest
    rw [List.getElem?_map, Option.map_eq_some_iff] at hindex
    obtain ⟨e, he, hviewed⟩ := hindex
    refine List.max?_eq_some_iff.2 ⟨?_, fun other hother => ?_⟩
    · obtain ⟨hlt, rfl⟩ := List.getElem?_eq_some_iff.1 he
      simp [hlt, ← (Prod.mk.inj hviewed).1]
    · obtain ⟨-, hother⟩ := List.mem_filter.1 hother
      obtain ⟨e', he', hname⟩ := Option.map_eq_some_iff.1 (of_decide_eq_true hother)
      by_contra hlt
      exact hlater other (e'.viewed id) (by omega) (by simp [he']) hname

end Lists

/-! ### A table represents a stack -/

theorem begins_modify
    {entries others : List Entry}
    (h : entries <+: others)
    (index : Nat)
    (f : Entry → Entry) :
    entries.modify index f <+: others.modify index f := by
  rw [List.prefix_iff_eq_take] at h ⊢
  rw [List.length_modify, List.take_modify, ← h]

theorem markOf_modify
    {f : Entry → Entry}
    (hname : ∀ e, (f e).name = e.name)
    (entries : List Entry)
    (index : Nat) :
    markOf (entries.modify index f) = markOf entries := by
  rw [markOf, markOf, List.length_modify, buffer_modify hname]

/--
The table is laid out as the entries of the stack, and each outstanding mark stands for what was
saved under it.  Each saved list begins those that were saved behind it, and the entries.
-/
structure Represents
    (limits : Limits)
    (outstanding : List Nat)
    (session : Session)
    (stack : Stack) :
    Prop where
  lists : session.table.Lists stack.entries
  limits : session.table.limits = limits
  taken : session.taken.length = stack.saved.length
  saved : ∀ number ∈ outstanding, ∃ entries, stack.saved[number]? = some entries ∧
    session.taken[number]? = some (markOf entries) ∧ entries <+: stack.entries
  nested : ∀ number ∈ outstanding, ∀ later ∈ outstanding, number < later → ∀ entries others,
    stack.saved[number]? = some entries → stack.saved[later]? = some others → entries <+: others

/-- The same answer, and a table that represents the stack afterwards. -/
def Agrees
    (limits : Limits)
    (outstanding : List Nat)
    (x : Answer × Session)
    (y : Answer × Stack) :
    Prop :=
  x.1 = y.1 ∧ Represents limits outstanding x.2 y.2

namespace Represents

variable {limits : Limits} {outstanding : List Nat} {session : Session} {s : Stack}

theorem start (limits : Limits) : Represents limits [] (.start limits) .start where
  lists := .empty limits
  limits := rfl
  taken := rfl
  saved := by simp
  nested := by simp

theorem lt_taken
    {number : Nat}
    (h : Represents limits outstanding session s)
    (hnumber : number ∈ outstanding) :
    number < session.taken.length := by
  obtain ⟨entries, -, hmark, -⟩ := h.saved number hnumber
  exact (List.getElem?_eq_some_iff.1 hmark).1

theorem add
    (h : Represents limits outstanding session s)
    (name : String)
    (kind : Symbol.Kind)
    (type : DataType) :
    Agrees limits outstanding (session.call (.add name kind type))
      (s.call limits (.add name kind type)) := by
  have hsize : session.table.size = s.entries.length := h.lists.size_eq
  have hbytes : session.table.nameBytes = s.nameBytes := h.lists.nameBytes_eq
  simp only [Session.call, Stack.call, SymbolTable.add, h.limits, hsize, hbytes]
  by_cases hfull : limits.symbols ≤ s.entries.length
  · simp only [hfull, if_true]
    exact ⟨rfl, h⟩
  · by_cases hlong : limits.nameBytes ≤ s.nameBytes + name.utf8ByteSize
    · simp only [hfull, hlong, if_true, if_false]
      exact ⟨rfl, h⟩
    · simp only [hfull, hlong, if_false]
      refine ⟨rfl, h.lists.push ⟨name, kind, type⟩, h.limits, h.taken, fun number hnumber => ?_,
        h.nested⟩
      obtain ⟨entries, hentries, hmark, hbegins⟩ := h.saved number hnumber
      exact ⟨entries, hentries, hmark, hbegins.trans (List.prefix_append ..)⟩

/-- A type is entered where the entry is, also in the saved lists that have the entry. -/
theorem setType
    (h : Represents limits outstanding session s) (index : Nat) (type : DataType) :
    Agrees limits outstanding (session.call (.setType index type))
      (s.call limits (.setType index type)) := by
  have hsize : session.table.size = s.entries.length := h.lists.size_eq
  have hrepresents : ∀ u, session.table.setType index type = .ok u →
      Represents limits outstanding { session with table := u } (s.setType index type) := by
    intro u hu
    refine ⟨h.lists.update (fun _ => rfl) (fun _ _ => rfl) hu, ?_,
      by simpa [Stack.setType] using h.taken, ?_, ?_⟩
    · unfold SymbolTable.setType SymbolTable.update at hu
      split at hu <;> cases hu
      exact h.limits
    · intro number hnumber
      obtain ⟨entries, hentries, hmark, hbegins⟩ := h.saved number hnumber
      refine ⟨entries.modify index fun e => { e with type }, by simp [Stack.setType, hentries], ?_,
        begins_modify hbegins ..⟩
      rw [hmark, markOf_modify (f := fun e => { e with type }) fun _ => rfl]
    · intro number hnumber later hlater hlt entries others hentries hothers
      simp only [Stack.setType, List.getElem?_map, Option.map_eq_some_iff] at hentries hothers
      obtain ⟨entries, hentries, rfl⟩ := hentries
      obtain ⟨others, hothers, rfl⟩ := hothers
      exact begins_modify
        (h.nested number hnumber later hlater hlt entries others hentries hothers) ..
  by_cases hlive : index < s.entries.length
  · have hset : session.table.setType index type =
        .ok { session.table with
          entries := session.table.entries.modify index fun symbol => { symbol with type } } := by
      rw [SymbolTable.setType, SymbolTable.update, if_pos (by rwa [hsize])]
    simp only [Session.call, Stack.call, hset, hlive, if_true]
    exact ⟨rfl, hrepresents _ hset⟩
  · have hset : session.table.setType index type = .error (.deadEntry index) := by
      rw [SymbolTable.setType, SymbolTable.update, if_neg (by rwa [hsize])]
    simp only [Session.call, Stack.call, hset, hlive, if_false]
    exact ⟨rfl, h⟩

theorem mark (h : Represents limits outstanding session s) :
    Agrees limits (outstanding ++ [session.taken.length]) (session.call .mark)
      (s.call limits .mark) := by
  have hmark : session.table.mark = markOf s.entries := h.lists.mark_eq
  -- What was saved before is found under the same number.
  have hold : ∀ {number entries}, number ∈ outstanding →
        (s.saved ++ [s.entries])[number]? = some entries →
      s.saved[number]? = some entries := by
    intro number entries hnumber hentries
    rwa [List.getElem?_append_left (h.taken ▸ h.lt_taken hnumber)] at hentries
  have hnew : ∀ {entries},
      (s.saved ++ [s.entries])[session.taken.length]? = some entries → s.entries = entries := by
    intro entries hentries
    simpa [h.taken] using hentries
  refine ⟨rfl, h.lists, h.limits, by simp [Session.call, Stack.call, h.taken], ?_, ?_⟩
  · intro number hnumber
    dsimp only [Session.call, Stack.call]
    obtain hnumber | hnumber := List.mem_append.1 hnumber
    · obtain ⟨entries, hentries, htaken, hbegins⟩ := h.saved number hnumber
      have hlt := h.lt_taken hnumber
      refine ⟨entries, ?_, ?_, hbegins⟩
      · rw [List.getElem?_append_left (h.taken ▸ hlt), hentries]
      · rw [List.getElem?_append_left hlt, htaken]
    · obtain rfl := List.mem_singleton.1 hnumber
      exact ⟨s.entries, by simp [h.taken], by simp [hmark], List.prefix_refl _⟩
  · intro number hnumber later hlater hlt entries others hentries hothers
    dsimp only [Session.call, Stack.call] at hentries hothers
    obtain hnumber | hnumber := List.mem_append.1 hnumber
    · have hentries := hold hnumber hentries
      obtain hlater | hlater := List.mem_append.1 hlater
      · exact h.nested number hnumber later hlater hlt entries others hentries (hold hlater hothers)
      · obtain rfl := List.mem_singleton.1 hlater
        obtain rfl := hnew hothers
        obtain ⟨entries', hentries', -, hbegins⟩ := h.saved number hnumber
        obtain rfl := Option.some.inj (hentries.symm.trans hentries')
        exact hbegins
    · obtain rfl := List.mem_singleton.1 hnumber
      obtain hlater | hlater := List.mem_append.1 hlater
      · exact absurd (h.lt_taken hlater) (by omega)
      · exact absurd (List.mem_singleton.1 hlater) (by omega)

/--
A release cuts the table back to what was saved; the marks taken before the released one stay good.
-/
theorem release
    {number : Nat}
    (h : Represents limits outstanding session s)
    (hnumber : number ∈ outstanding) :
    Agrees limits (outstanding.filter (· < number)) (session.call (.release number))
      (s.call limits (.release number)) := by
  obtain ⟨entries, hentries, hmark, others, hothers⟩ := h.saved number hnumber
  have hlists : session.table.Lists (entries ++ others) := by
    rw [hothers]
    exact h.lists
  have hcount : (markOf entries).entries = entries.length := rfl
  obtain ⟨u, hrelease, hu⟩ := hlists.exists_release hcount rfl
  simp only [Session.call, Stack.call, hmark, hentries, hrelease]
  refine ⟨rfl, hu, (SymbolTable.limits_of_release hrelease).trans h.limits, h.taken, ?_, ?_⟩
  · intro older holder
    obtain ⟨holder, hlt⟩ := List.mem_filter.1 holder
    obtain ⟨entries', hentries', hmark', -⟩ := h.saved older holder
    exact ⟨entries', hentries', hmark',
      h.nested older holder number hnumber (of_decide_eq_true hlt) entries' entries hentries'
        hentries⟩
  · intro older holder later hlater
    exact h.nested older (List.mem_filter.1 holder).1 later (List.mem_filter.1 hlater).1

theorem call
    {call : Call}
    (h : Represents limits outstanding session s)
    (hallowed : call.allowed outstanding = true) :
    Agrees limits (call.outstanding session.taken.length outstanding) (session.call call)
      (s.call limits call) := by
  cases call with
  | add name kind type => exact h.add name kind type
  | find wanted =>
    exact ⟨by simp [Session.call, Stack.call, h.lists.find_eq s.saved, Answer.ofExcept], h⟩
  | get index => exact ⟨h.lists.ofExcept_get s.saved index .symbol, h⟩
  | name index => exact ⟨h.lists.ofExcept_name s.saved index, h⟩
  | resolve index => exact ⟨h.lists.ofExcept_resolve s.saved index, h⟩
  | setType index type => exact h.setType index type
  | mark => exact h.mark
  | release number => exact h.release (of_decide_eq_true hallowed)

end Represents

/-! ### Whole sessions -/

theorem length_taken_call (session : Session) (call : Call) :
    (session.call call).2.taken.length = call.taken session.taken.length := by
  cases call with
  | add name kind type =>
    rw [Session.call]
    split <;> rfl
  | setType index type =>
    rw [Session.call]
    split <;> rfl
  | mark => simp [Session.call, Call.taken]
  | release number =>
    rw [Session.call]
    split
    · rfl
    · split <;> rfl
  | find wanted => rfl
  | get index => rfl
  | name index => rfl
  | resolve index => rfl

/-- Through a disciplined session, a table that represents a stack shows what the stack shows. -/
theorem Represents.run
    {limits : Limits}
    {outstanding : List Nat}
    {session : Session}
    {s : Stack}
    {calls : List Call}
    (h : Represents limits outstanding session s)
    (hcalls : disciplined session.taken.length outstanding calls = true) :
    table.observe session calls = (stack limits).observe s calls ∧
    ∃ left,
      Represents limits left (table.after session calls) ((stack limits).after s calls) ∧
      ∀ more,
        disciplined session.taken.length outstanding (calls ++ more) =
          disciplined (table.after session calls).taken.length left more := by
  induction calls generalizing outstanding session s with
  | nil => exact ⟨rfl, outstanding, h, fun _ => rfl⟩
  | cons call calls ih =>
    rw [disciplined, Bool.and_eq_true] at hcalls
    obtain ⟨hanswer, hnext⟩ := h.call hcalls.1
    rw [← length_taken_call] at hcalls
    obtain ⟨hobserve, left, hleft, hmore⟩ := ih hnext hcalls.2
    refine ⟨?_, left, hleft, fun more => ?_⟩
    · have hsize : (session.call call).2.table.size = (s.call limits call).2.entries.length :=
        hnext.lists.size_eq
      have hbytes : (session.call call).2.table.nameBytes = (s.call limits call).2.nameBytes :=
        hnext.lists.nameBytes_eq
      exact congrArg₂ List.cons (congr (congrArg₂ Observation.mk hanswer hsize) hbytes) hobserve
    · rw [List.cons_append, disciplined, hcalls.1, Bool.true_and, ← length_taken_call]
      exact hmore more

/-- The entries respect the limits; names do not fill a buffer that has room for a name. -/
def Stack.Bounded (limits : Limits) (s : Stack) : Prop :=
  s.entries.length ≤ limits.symbols ∧ (0 < limits.nameBytes → s.nameBytes < limits.nameBytes)

namespace Stack

variable {limits : Limits}

/-- An answer about an entry is a fault if the index is dead. -/
theorem about_cases
    (s : Stack) (index : Nat) (answer : Entry → Answer) :
    (s.entries.length ≤ index ∧ s.about index answer = .fault (.deadEntry index)) ∨
    ∃ e, s.about index answer = answer e := by
  unfold about
  cases hindex : s.entries[index]? with
  | none => exact .inl ⟨List.getElem?_eq_none_iff.1 hindex, rfl⟩
  | some e => exact .inr ⟨e, rfl⟩

theorem Bounded.of_begins
    {s : Stack}
    {entries : List Entry}
    {saved : List (List Entry)}
    (h : s.Bounded limits)
    (hbegins : entries <+: s.entries) :
    Bounded limits ⟨entries, saved⟩ := by
  refine ⟨hbegins.length_le.trans h.1, fun hroom => ?_⟩
  obtain ⟨others, hothers⟩ := hbegins
  have hbytes := h.2 hroom
  rw [nameBytes, ← hothers, List.map_append, List.sum_append] at hbytes
  exact Nat.lt_of_le_of_lt (Nat.le_add_right ..) hbytes

theorem about_ne_added
    {s : Stack}
    {index added : Nat}
    {answer : Entry → Answer}
    (h : ∀ e, answer e ≠ .added added) :
    s.about index answer ≠ .added added := by
  obtain ⟨-, hdead⟩ | ⟨e, he⟩ := s.about_cases index answer
  · simp [hdead]
  · rw [he]
    exact h e

theorem dead_of_about
    {s : Stack}
    {index : Nat}
    {answer : Entry → Answer}
    {error : Fault}
    (h : ∀ e, answer e ≠ .fault error)
    (hfault : s.about index answer = .fault error) :
    s.entries.length ≤ index := by
  obtain ⟨hdead, -⟩ | ⟨e, he⟩ := s.about_cases index answer
  · exact hdead
  · exact absurd (he.symm.trans hfault) (h e)

/-- Only a buffer that has room for a name takes one. -/
theorem room_of_added
    {s : Stack}
    {call : Call}
    {index : Nat}
    (h : (s.call limits call).1 = .added index) :
    0 < limits.nameBytes := by
  cases call with
  | add name kind type =>
    rw [Stack.call] at h
    split at h
    · cases h
    · split at h
      · cases h
      · omega
  | get index => exact absurd h (about_ne_added fun e => by simp)
  | name index => exact absurd h (about_ne_added fun e => by simp)
  | resolve index => exact absurd h (about_ne_added fun e => by split <;> simp)
  | find wanted => cases h
  | setType index type =>
    rw [Stack.call] at h
    split at h <;> cases h
  | mark => cases h
  | release number =>
    rw [Stack.call] at h
    split at h <;> cases h

/-- Only calls about dead entries fault. -/
theorem dead_of_fault
    {s : Stack}
    {call : Call}
    {error : Fault}
    (h : (s.call limits call).1 = .fault error) :
    ∃ index, call.index? = some index ∧ s.entries.length ≤ index := by
  cases call with
  | add name kind type =>
    rw [Stack.call] at h
    split at h
    · cases h
    · split at h <;> cases h
  | get index => exact ⟨index, rfl, dead_of_about (fun e => by simp) h⟩
  | name index => exact ⟨index, rfl, dead_of_about (fun e => by simp) h⟩
  | resolve index => exact ⟨index, rfl, dead_of_about (fun e => by split <;> simp) h⟩
  | find wanted => cases h
  | setType index type =>
    rw [Stack.call] at h
    split at h
    · cases h
    · exact ⟨index, rfl, by omega⟩
  | mark => cases h
  | release number =>
    rw [Stack.call] at h
    split at h <;> cases h

/-- A call leaves what was saved, apart from types. -/
theorem saved_call
    (limits : Limits)
    {s : Stack}
    {number : Nat}
    {entries : List Entry}
    (h : s.saved[number]? = some entries)
    (call : Call) :
    ∃ retyped,
      (s.call limits call).2.saved[number]? = some retyped ∧
      retyped.map (viewed id) = entries.map (viewed id) := by
  have hsame : ∃ retyped,
      s.saved[number]? = some retyped ∧ retyped.map (viewed id) = entries.map (viewed id) :=
    ⟨entries, h, rfl⟩
  cases call with
  | add name kind type =>
    rw [Stack.call]
    split
    · exact hsame
    · split <;> exact hsame
  | setType index type =>
    rw [Stack.call]
    split
    · exact ⟨entries.modify index fun e => { e with type }, by simp [setType, h],
        Entry.map_modify fun _ _ => rfl⟩
    · exact hsame
  | mark =>
    refine ⟨entries, ?_, rfl⟩
    rw [Stack.call, List.getElem?_append_left (List.getElem?_eq_some_iff.1 h).1, h]
  | release other =>
    rw [Stack.call]
    split <;> exact hsame
  | find wanted => exact hsame
  | get index => exact hsame
  | name index => exact hsame
  | resolve index => exact hsame

theorem saved_after
    (limits : Limits)
    {s : Stack}
    {number : Nat}
    {entries : List Entry}
    (h : s.saved[number]? = some entries)
    (calls : List Call) :
    ∃ retyped,
      ((stack limits).after s calls).saved[number]? = some retyped ∧
      retyped.map (viewed id) = entries.map (viewed id) := by
  induction calls generalizing s entries with
  | nil => exact ⟨entries, h, rfl⟩
  | cons call calls ih =>
    obtain ⟨retyped, hretyped, hview⟩ := saved_call limits h call
    obtain ⟨others, hothers, hview'⟩ := ih hretyped
    exact ⟨others, hothers, hview'.trans hview⟩

end Stack

theorem Represents.bounded_call
    {limits : Limits}
    {outstanding : List Nat}
    {session : Session}
    {s : Stack}
    {call : Call}
    (h : Represents limits outstanding session s)
    (hallowed : call.allowed outstanding = true)
    (hbounded : s.Bounded limits) :
    (s.call limits call).2.Bounded limits := by
  cases call with
  | add name kind type =>
    rw [Stack.call]
    split
    · exact hbounded
    · split
      · exact hbounded
      · refine ⟨by simp; omega, fun _ => ?_⟩
        simp only [Stack.nameBytes, List.map_append, List.sum_append, List.map_cons, List.map_nil,
          List.sum_singleton] at *
        omega
  | setType index type =>
    rw [Stack.call]
    split
    · refine ⟨by simpa [Stack.setType] using hbounded.1, ?_⟩
      have hnames : (s.setType index type).nameBytes = s.nameBytes :=
        congrArg List.sum (Entry.map_modify (f := fun e => { e with type }) fun _ _ => rfl)
      rw [hnames]
      exact hbounded.2
    · exact hbounded
  | release number =>
    obtain ⟨entries, hentries, -, hbegins⟩ := h.saved number (of_decide_eq_true hallowed)
    simp only [Stack.call, hentries]
    exact hbounded.of_begins hbegins
  | find wanted => exact hbounded
  | get index => exact hbounded
  | name index => exact hbounded
  | resolve index => exact hbounded
  | mark => exact hbounded

/-! ### Tables are stacks -/

theorem Represents.bounded_after
    {limits : Limits}
    {outstanding : List Nat}
    {session : Session}
    {s : Stack}
    {calls : List Call}
    (h : Represents limits outstanding session s)
    (hcalls : disciplined session.taken.length outstanding calls = true)
    (hbounded : s.Bounded limits) :
    ((stack limits).after s calls).Bounded limits := by
  induction calls generalizing outstanding session s with
  | nil => exact hbounded
  | cons call calls ih =>
    rw [disciplined, Bool.and_eq_true] at hcalls
    have hnext := (h.call hcalls.1).2
    rw [← length_taken_call] at hcalls
    exact ih hnext hcalls.2 (h.bounded_call hcalls.1 hbounded)

theorem Stack.room_of_observed
    {limits : Limits}
    {s : Stack}
    {calls : List Call}
    {observation : Observation}
    {index : Nat}
    (h : observation ∈ (stack limits).observe s calls)
    (hadded : observation.answer = .added index) :
    0 < limits.nameBytes := by
  induction calls generalizing s with
  | nil => cases h
  | cons call calls ih =>
    obtain rfl | h := List.mem_cons.1 h
    · exact room_of_added hadded
    · exact ih h

theorem buffer_congr
    {entries others : List Entry}
    (h : entries.map (viewed id) = others.map (viewed id)) :
    buffer entries = buffer others := by
  have hnames := congrArg (List.map Prod.fst) h
  simp only [List.map_map, Function.comp_def, viewed] at hnames
  rw [buffer, hnames, buffer]

/-- Entries of the same names and kinds are laid out alike, apart from types. -/
theorem layout_congr
    {entries others : List Entry}
    (h : entries.map (viewed id) = others.map (viewed id))
    (start : Nat) :
    (layout start entries).map Symbol.untyped = (layout start others).map Symbol.untyped := by
  induction entries generalizing others start with
  | nil =>
    obtain rfl : others = [] := by simpa using h.symm
    rfl
  | cons e entries ih =>
    cases others with
    | nil => simp at h
    | cons e' others =>
      obtain ⟨hhead, htail⟩ := List.cons.inj h
      obtain ⟨hname, hkind⟩ := Prod.mk.inj hhead
      simp only [id_eq] at hkind
      simp [layout, symbolAt, Symbol.untyped, hname, hkind, ih htail]

theorem disciplined_of_append
    {taken : Nat}
    {outstanding : List Nat}
    {calls more : List Call}
    (h : disciplined taken outstanding (calls ++ more) = true) :
    disciplined taken outstanding calls = true := by
  induction calls generalizing taken outstanding with
  | nil => rfl
  | cons call calls ih =>
    rw [List.cons_append, disciplined, Bool.and_eq_true] at h
    rw [disciplined, h.1, ih h.2, Bool.and_self]

/--
Releasing an outstanding mark gives back the table of the mark, apart from the types of its entries.
-/
theorem Represents.restored
    {limits : Limits}
    {outstanding : List Nat}
    {session current : Session}
    {s : Stack}
    {between : List Call}
    (h : Represents limits outstanding session s)
    (hcurrent : table.after session (.mark :: between) = current)
    (hcalls : disciplined session.taken.length outstanding (.mark :: between ++
      [.release session.taken.length]) =
      true) :
    (current.call (.release session.taken.length)).2.table.names = session.table.names ∧
    (current.call (.release session.taken.length)).2.table.entries.toList.map Symbol.untyped =
      session.table.entries.toList.map Symbol.untyped ∧
    (current.call (.release session.taken.length)).2.table.entries =
      current.table.entries.take session.table.size := by
  obtain ⟨-, left, hleft, hmore⟩ := h.run (disciplined_of_append hcalls)
  rw [hcurrent] at hleft
  have hmem : session.taken.length ∈ left := by
    rw [hmore, disciplined, Bool.and_eq_true] at hcalls
    exact of_decide_eq_true hcalls.1
  obtain ⟨entries, hentries, -, others, hothers⟩ := hleft.saved _ hmem
  -- What is saved under the mark has changed in types only since the mark was taken.
  have hview : entries.map (viewed id) = s.entries.map (viewed id) := by
    have hsaved : (s.call limits .mark).2.saved[session.taken.length]? = some s.entries := by
      simp [Stack.call, h.taken]
    obtain ⟨retyped, hretyped, hview⟩ := Stack.saved_after limits hsaved between
    obtain rfl := Option.some.inj (hentries.symm.trans hretyped)
    exact hview
  have hlength : session.table.size = entries.length := by
    rw [h.lists.size_eq, ← List.length_map (f := viewed id), ← hview, List.length_map]
  have hlists := (hleft.release hmem).2.lists
  simp only [Stack.call, hentries] at hlists
  refine ⟨?_, ?_, ?_⟩
  · rw [hlists.names, h.lists.names, buffer_congr hview]
  · rw [hlists.entries, h.lists.entries, layout_congr hview]
  · refine Array.toList_inj.1 ?_
    have hcurrent : current.table.entries.toList =
        layout 0 entries ++ layout (0 + (buffer entries).utf8ByteSize) others := by
      rw [hleft.lists.entries, ← hothers, layout_append]
    simp [hlists.entries, hcurrent, hlength]

/--
Whatever is called, a table tells what the stack of its entries tells, as long as only outstanding
marks are released.  Calls about entries that are there never fault, and both the number of entries
and the bytes of their names stay within the limits.  A name that does not fit changes nothing.
Releasing a mark gives back the table of the mark: all names and kinds as they were, and the types
that have been entered since.
-/
theorem observe_eq_of_disciplined
    (limits : Limits) (calls : List Call) (h : disciplined 0 [] calls = true) :
    table.observe (.start limits) calls = (stack limits).observe .start calls ∧
    ∀ session : Session, table.after (.start limits) calls = session →
      (∀ call error, disciplined 0 [] (calls ++ [call]) = true →
        (session.call call).1 = .fault error →
        ∃ index, call.index? = some index ∧ session.table.size ≤ index) ∧
      session.table.size ≤ limits.symbols ∧
      ((∃ observation ∈ table.observe (.start limits) calls,
        ∃ index, observation.answer = .added index) →
        session.table.nameBytes < limits.nameBytes) ∧
      (∀ name kind type error, (session.call (.add name kind type)).1 = .full error →
        (session.call (.add name kind type)).2 = session) ∧
      ∀ before between old, calls = before ++ .mark :: between →
        table.after (.start limits) before = old →
        disciplined 0 [] (calls ++ [.release old.taken.length]) = true →
        ∀ restored, (session.call (.release old.taken.length)).2.table = restored →
          restored.names = old.table.names ∧
          restored.entries.toList.map Symbol.untyped = old.table.entries.toList.map Symbol.untyped ∧
          restored.entries = session.table.entries.take old.table.size := by
  have hstart := Represents.start limits
  obtain ⟨hobserve, left, hleft, hmore⟩ := hstart.run h
  refine ⟨hobserve, ?_⟩
  rintro session rfl
  have hsize := hleft.lists.size_eq
  obtain ⟨hsymbols, hbytes⟩ := hstart.bounded_after h ⟨Nat.zero_le _, id⟩
  refine ⟨?_, ?_, ?_, ?_, ?_⟩
  · intro call error hcall hfault
    have hallowed : call.allowed left = true := by
      rw [show (0 : Nat) = (Session.start limits).taken.length from rfl, hmore, disciplined,
        Bool.and_eq_true] at hcall
      exact hcall.1
    rw [(hleft.call hallowed).1] at hfault
    obtain ⟨index, hindex, hdead⟩ := Stack.dead_of_fault hfault
    exact ⟨index, hindex, by rwa [hsize]⟩
  · rwa [hsize]
  · rintro ⟨observation, hmem, index, hadded⟩
    rw [hobserve] at hmem
    rw [hleft.lists.nameBytes_eq]
    exact hbytes (Stack.room_of_observed hmem hadded)
  · intro name kind type error hfull
    simp only [Session.call] at hfull ⊢
    split at hfull
    · cases hfull
    · rfl
  · rintro before between old rfl rfl hcalls restored rfl
    obtain ⟨-, left', hold, hmore'⟩ := hstart.run (disciplined_of_append h)
    rw [List.append_assoc, show (0 : Nat) = (Session.start limits).taken.length from rfl, hmore']
      at hcalls
    exact hold.restored (List.foldl_append ..).symm hcalls

/--
Two scopes over a name with a letter of two bytes and over an empty name; the outer scope is left
from within the inner one.
-/
def nestedScopes : List Call :=
  [.add "Ä" (.variable false) .unknown, .mark, .add "" .parameter .integer,
    .setType 0 .integer, .mark, .add "Ä" .constant .integer, .find "Ä", .name 2, .release 0,
    .find "Ä", .get 0, .name 1, .add "B" .constant .integer]

theorem observe_nestedScopes :
    disciplined 0 [] nestedScopes = true ∧
    (table.observe (.start {}) nestedScopes).map (·.answer) =
      [.added 0, .done, .added 1, .done, .done, .added 2, .found (some 2), .text "Ä", .done,
        .found (some 0), .symbol (.variable false) .integer, .fault (.deadEntry 1), .added 1] := by
  refine ⟨by decide, ?_⟩
  rw [(observe_eq_of_disciplined {} nestedScopes (by decide)).1]
  decide +kernel

-- A mark that was retired with an older one, when released, cuts through the name of an entry that
-- stays.
example :
    disciplined 0 [] [.mark, .add "ab" .constant .unknown, .mark, .release 0,
      .add "cde" .constant .unknown, .release 1] =
      false ∧
    ((table.after (.start {}) [.mark, .add "ab" .constant .unknown, .mark, .release 0,
      .add "cde" .constant .unknown, .release 1]).call (.name 0)).1 =
      .fault (.danglingName 0) := by
  decide +kernel

end SymbolTable
end Oberon
