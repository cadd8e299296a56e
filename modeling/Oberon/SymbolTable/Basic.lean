import Oberon.SymbolTable.Names
import Oberon.SymbolTable.Symbol

/-!
# Symbol tables

A symbol table is a log of entries over one name buffer.  Look-up goes from the newest entry to the
oldest, so inner declarations hide outer ones.  A scope is a `Mark`: releasing it cuts both the
entries and the name buffer back to what they were.

Marks may be released in any order.  Entries whose names were cut away stay in the table then, and
an operation that reads such a name ends in a `Fault`.
-/

namespace Oberon

/-- The declared names, oldest first. -/
structure SymbolTable where
  entries : Array Symbol := #[]
  names : String := ""
  limits : Limits := {}
  deriving DecidableEq, Repr

/-- The numbers of entries and of name bytes at some moment. -/
structure SymbolTable.Mark where
  entries : Nat
  nameBytes : Nat
  deriving DecidableEq, Repr

namespace SymbolTable

/-- A table without entries. -/
def empty (limits : Limits) : SymbolTable := { limits }

def size (t : SymbolTable) : Nat := t.entries.size

def nameBytes (t : SymbolTable) : Nat := t.names.utf8ByteSize

/-- Appends an entry without a look at the limits. -/
def push (t : SymbolTable) (name : String) (kind : Symbol.Kind) (type : DataType) : SymbolTable :=
  { t with
    entries := t.entries.push ⟨t.nameBytes, name.utf8ByteSize, kind, type⟩
    names := t.names ++ name }

/-- Appends an entry and gives its index; the name buffer is never filled to its last byte. -/
def add (t : SymbolTable) (name : String) (kind : Symbol.Kind) (type : DataType) :
    Except LimitError (Nat × SymbolTable) :=
  if t.limits.symbols ≤ t.size then .error .symbols
  else if t.limits.nameBytes ≤ t.nameBytes + name.utf8ByteSize then .error .nameBytes
  else .ok (t.size, t.push name kind type)

/-- Appends reserved words until one does not fit. -/
def addKeywords : List Keyword → SymbolTable → EStateM.Result LimitError SymbolTable Unit
  | [], t => .ok () t
  | word :: words, t =>
    match t.add word.spelling (.reserved word) (.ofKeyword word) with
    | .ok (_, next) => addKeywords words next
    | .error e => .error e t

/-- Appends every reserved word; those that fit stay in the table if one does not. -/
def seed (t : SymbolTable) : EStateM.Result LimitError SymbolTable Unit :=
  addKeywords Keyword.all t

/-- The reserved words, with room for anything. -/
def reserved : SymbolTable :=
  Keyword.all.foldl (fun t word => t.push word.spelling (.reserved word) (.ofKeyword word))
    (empty .largest)

/-- The entry at an index. -/
def get (t : SymbolTable) (index : Nat) : Except Fault Symbol :=
  match t.entries[index]? with
  | some symbol => .ok symbol
  | none => .error (.deadEntry index)

/-- The name of the entry at an index. -/
def name (t : SymbolTable) (index : Nat) : Except Fault String :=
  match t.entries[index]? with
  | none => .error (.deadEntry index)
  | some symbol =>
    match Names.slice? t.names symbol.start (symbol.start + symbol.length) with
    | some text => .ok text
    | none => .error (.danglingName index)

/-- The newest entry with a name among the first `count` entries. -/
def findBelow (t : SymbolTable) (wanted : String) : Nat → Except Fault (Option Nat)
  | 0 => .ok none
  | count + 1 =>
    match t.name count with
    | .error fault => .error fault
    | .ok text => if text = wanted then .ok (some count) else findBelow t wanted count

/-- The newest entry with a name. -/
def find (t : SymbolTable) (wanted : String) : Except Fault (Option Nat) :=
  t.findBelow wanted t.size

/-- The reserved word that a name stands for. -/
def keyword? (t : SymbolTable) (wanted : String) : Except Fault (Option Keyword) :=
  match t.find wanted with
  | .error fault => .error fault
  | .ok none => .ok none
  | .ok (some index) =>
    match t.get index with
    | .error fault => .error fault
    | .ok symbol =>
      match symbol.kind with
      | .reserved word => .ok (some word)
      | _ => .ok none

/-- The index of the module that an alias stands for; any other entry stands for itself. -/
def resolve (t : SymbolTable) (index : Nat) : Except Fault Nat :=
  match t.get index with
  | .error fault => .error fault
  | .ok symbol =>
    match symbol.kind with
    | .aliasOf target => .ok target
    | _ => .ok index

/-- Changes the entry at an index. -/
def update (t : SymbolTable) (index : Nat) (change : Symbol → Symbol) : Except Fault SymbolTable :=
  if index < t.size then .ok { t with entries := t.entries.modify index change }
  else .error (.deadEntry index)

/-- Changes the type of the entry at an index. -/
def setType (t : SymbolTable) (index : Nat) (type : DataType) : Except Fault SymbolTable :=
  t.update index fun symbol => { symbol with type }

/-- Opens a scope. -/
def mark (t : SymbolTable) : Mark := ⟨t.size, t.nameBytes⟩

/-- Drops the entries, then the name bytes, behind a mark. -/
def release (t : SymbolTable) (m : Mark) : EStateM.Result Fault SymbolTable Unit :=
  let cut := { t with entries := t.entries.take m.entries }
  if t.nameBytes ≤ m.nameBytes then .ok () cut
  else match Names.take? t.names m.nameBytes with
    | some names => .ok () { cut with names }
    | none => .error (.splitCharacter m.nameBytes) cut

end SymbolTable
end Oberon
