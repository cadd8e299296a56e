import Oberon.Proofs.Scanning

/-!
# Safety

No compilation ends in a fault.  All names of the symbol table lie in its name buffer, aliases stand
for modules that are there, every index that is asked for is in use, and the signature of a
procedure is entered for the entry of that procedure.  Captures are closed behind every run, also on
a halt.

**Main statement.**  `perform_wholeModule_safe`.
-/

namespace Oberon

/-! ### Tables without loose ends -/

/--
The names of the entries lie in the name buffer, between characters, and aliases stand for earlier
imported modules.
-/
structure SymbolTable.Sound (t : SymbolTable) : Prop where
  names : ∀ (index : Nat) (symbol : Symbol), t.entries[index]? = some symbol →
    (String.Pos.Raw.mk symbol.start).IsValid t.names ∧
      (String.Pos.Raw.mk (symbol.start + symbol.length)).IsValid t.names
  aliases : ∀ (index : Nat) (symbol : Symbol) (target : Nat), t.entries[index]? = some symbol →
    symbol.kind = .aliasOf target →
    target < index ∧ ∃ module : Symbol, t.entries[target]? = some module ∧ module.kind = .imported

namespace SymbolTable

theorem get_eq_ok_iff {t : SymbolTable} {index : Nat} {symbol : Symbol} :
    t.get index = .ok symbol ↔ t.entries[index]? = some symbol := by
  unfold get
  split
  · rename_i found hfound
    simp [hfound]
  · rename_i hfound
    simp [hfound]

/-- A name that can be read lies between two places of the buffer. -/
theorem isValid_of_name
    {t : SymbolTable}
    {index : Nat}
    {symbol : Symbol}
    {name : String}
    (hname : t.name index = .ok name)
    (hsymbol : t.entries[index]? = some symbol) :
    (String.Pos.Raw.mk symbol.start).IsValid t.names ∧
    (String.Pos.Raw.mk (symbol.start + symbol.length)).IsValid t.names := by
  rw [SymbolTable.name, hsymbol] at hname
  dsimp only at hname
  split at hname
  · rename_i text hslice
    unfold Names.slice? at hslice
    split at hslice
    · assumption
    · cases hslice
  · cases hname

end SymbolTable

/-! ### Captures -/

@[simp] theorem Output.length_captures_write (o : Output) (text : String) :
    (o.write text).captures.length = o.captures.length := by
  obtain ⟨units, captures⟩ := o
  cases captures <;> rfl

namespace Compilation

open Oberon.Compilation.Action

variable {α β : Type}

theorem Request.Ends.length_captures {request : Request β} {s t : State} (h : request.Ends s t) :
    t.output.captures.length = s.output.captures.length := by
  cases h with
  | write text => exact Output.length_captures_write s.output text
  | _ => rfl

/-- Every capture is closed again. -/
theorem kept_captures : Kept fun s t => t.output.captures.length = s.output.captures.length where
  refl _ := rfl
  trans hst htu := htu.trans hst
  request r s := (r.ends_perform s).length_captures
  capture s t h := by
    rw [Output.closeCapture, List.length_tail, h]
    simp [Output.openCapture]
  procedure s t h := by
    unfold leave
    cases t.symbols.release s.symbols.mark <;> exact h

/-! ### Safety of runs -/

theorem State.Scoped.sound
    {s : State}
    {owner : Scope.Owner}
    {outer inner : List (String × Symbol.Kind)}
    (h : s.Scoped owner outer inner) :
    s.symbols.Sound := by
  -- An entry of the table is one of those that the table shows.
  have hshown : ∀ {index : Nat} {symbol : Symbol}, s.symbols.entries[index]? = some symbol →
      ∃ name, (outer ++ inner)[index]? = some (name, symbol.kind.bare) := by
    intro index symbol hsymbol
    have hlt : index < (outer ++ inner).length := by
      rw [← h.size_eq]
      exact (Array.getElem?_eq_some_iff.1 hsymbol).1
    obtain ⟨⟨name, kind⟩, hindex⟩ : ∃ entry, (outer ++ inner)[index]? = some entry :=
      ⟨_, List.getElem?_eq_getElem hlt⟩
    obtain ⟨found, hget, hkind⟩ := h.symbols.exists_get hindex
    rw [SymbolTable.get_eq_ok_iff, hsymbol] at hget
    cases hget
    exact ⟨name, by rw [hindex, hkind]⟩
  constructor
  · intro index symbol hsymbol
    obtain ⟨name, hindex⟩ := hshown hsymbol
    exact SymbolTable.isValid_of_name (h.symbols.name_eq hindex) hsymbol
  · intro index symbol target hsymbol hkind
    obtain ⟨name, hindex⟩ := hshown hsymbol
    rw [hkind] at hindex
    obtain ⟨hindex, real, hreal⟩ := h.alias_spec hindex
    obtain ⟨module, hget, hmodule⟩ := h.symbols.exists_get hreal
    refine ⟨by omega, module, SymbolTable.get_eq_ok_iff.1 hget, ?_⟩
    cases hcase : module.kind <;> rw [hcase] at hmodule <;> cases hmodule

theorem State.Orderly.sound {s : State} (h : s.Orderly) : s.symbols.Sound := by
  obtain ⟨owner, outer, inner, hs⟩ := h
  exact hs.sound

/-- In a module in good order a procedure enters its signature for its own entry. -/
theorem State.Orderly.entryOf
    {s u : State}
    (hs : s.Orderly)
    (howner : s.scope.owner = .module)
    {depth index : Nat}
    {exported : Bool}
    {parameters : List DataType}
    {result : DataType}
    (h : procedureDeclaration.Comes depth s (some ⟨Unit,
      .setSignature index exported parameters result⟩) u) :
    entryOf s.token.lexeme index exported u := by
  obtain ⟨owner, outer, inner, hscoped⟩ := hs
  obtain rfl : owner = .module := hscoped.owner.symm.trans howner
  exact ((honors_procedureDeclaration s.token.lexeme).comes ⟨rfl, inner, hscoped⟩ h).2.2

end Compilation

open Compilation in
/--
No compilation ends in a fault, and none comes near one: at every moment the names of the table lie
in its buffer, aliases stand for imported modules before them, and an index that is asked for is in
use.  The signature of a procedure is entered for the entry with the procedure's name, which is the
last one of the module.  At the end, also of a compilation that fails, no capture is open.
-/
theorem perform_wholeModule_safe (source header : String) (limits : Limits) :
    match State.start source limits with
    | .error halt => ∀ fault, halt ≠ .fault fault
    | .ok start =>
      (∀ moment u, (wholeModule header).Comes (start.remaining + 1) start moment u →
        u.symbols.Sound ∧ Live someEntry moment u) ∧
      (∀ moment s, (wholeModule header).Comes (start.remaining + 1) start moment s →
        s.scope.owner = .module →
        ∀ depth index exported parameters result u,
          procedureDeclaration.Comes depth s (some ⟨Unit,
            .setSignature index exported parameters result⟩) u →
            entryOf s.token.lexeme index exported u) ∧
      (∀ fault t, (wholeModule header).perform start ≠ .error (.fault fault) t) ∧
      (endState ((wholeModule header).perform start)).symbols.Sound ∧
      (endState ((wholeModule header).perform start)).output.captures = [] := by
  have hcases := start_cases source limits
  cases hstart : State.start source limits with
  | error halt =>
    rw [hstart] at hcases
    rintro fault rfl
    obtain ⟨e, he⟩ | ⟨e, he, -⟩ := hcases
    · cases he
    · cases he
  | ok start =>
    have hscoped := (start_spec hstart).1
    have hhonors := @honors_wholeModule reservedEntries (start.remaining + 1) header
    refine ⟨fun moment u hu => ?_,
      fun moment s hs howner depth index exported parameters result u hu => ?_,
      fun fault t hhalts => (hhonors.halts hscoped hhalts).2 fault rfl, ?_, ?_⟩
    · obtain ⟨horderly, hlive⟩ := hhonors.comes hscoped hu
      exact ⟨horderly.sound, hlive⟩
    · exact (hhonors.comes hscoped hs).1.entryOf howner hu
    · obtain ⟨inner, hend⟩ := inside_endState hhonors hscoped
      exact hend.sound
    · have hcaptures :=
        kept_captures.run (kept_captures.rule (start.remaining + 1)) (wholeModule header) start
      rw [(start_spec hstart).2.1] at hcaptures
      exact List.length_eq_zero_iff.1 hcaptures

end Oberon
