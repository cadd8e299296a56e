import Oberon.Proofs.Translation.Chain

/-!
# The translation of designators and calls

A designator is read exactly on the spelling of a name with its indices, where each index is an
integer behind an array, and the arguments of a call exactly on expressions that suit the parameters
of what is called.
-/

namespace Oberon
namespace Compilation

open Oberon.Grammar
open Oberon.Compilation.Action

variable {depth : Nat} {s t : State}

/-! ### Designators -/

theorem gives_designate_iff
    (index : Nat) (name : String) (d : Designator) :
    (designate index name).Gives depth s d t ↔
      ∃ symbol,
        s.symbols.get index = .ok symbol ∧ Context.valueOf? symbol name = some d ∧ t = s := by
  simp only [designate, gives_bind, gives_symbol]
  constructor
  · rintro ⟨symbol, u, ⟨hget, rfl⟩, h⟩
    refine ⟨symbol, hget, ?_⟩
    unfold Context.valueOf?
    split at h <;> simp_all
  · rintro ⟨symbol, hget, hvalue, rfl⟩
    refine ⟨symbol, t, ⟨hget, rfl⟩, ?_⟩
    unfold Context.valueOf? at hvalue
    split at hvalue <;> simp_all

/--
What is read behind the name in front of a designator; the kind of the symbol that the name stands
for tells.
-/
def behindName (called : String) (index target : Nat) : Symbol.Kind → Action (String × Designator)
  | .thisModule => do
    expect (.sign .dot)
    let member ← identifier
    let some entry ← find member | reject (.undeclared (called ++ "." ++ member))
    return ((← moduleName), ← designate entry member)
  | .imported => do
    let owner ← nameOf target
    expect (.sign .dot)
    let member ← identifier
    return (owner, { name := member, type := .unknown, assignable := true })
  | _ => do return ((← moduleName), ← designate index called)

/-- In front of a designator an identifier is taken that stands for a symbol. -/
theorem gives_designatorName_iff_name (found : String × Designator) :
    designatorName.Gives depth s found t ↔
      ∃ index target symbol u,
        s.symbols.find s.token.lexeme = .ok (some index) ∧ s.symbols.resolve index = .ok target ∧
        s.symbols.get target = .ok symbol ∧ s.Translates [.identifier s.token.lexeme] "" u ∧
        (behindName s.token.lexeme index target symbol.kind).Gives depth u found t := by
  simp only [designatorName, gives_bind, gives_look, gives_ite, gives_find, gives_reject]
  constructor
  · rintro ⟨_, _, ⟨rfl, rfl⟩, ⟨hkind, entry, s, ⟨hfind, rfl⟩, h⟩ | ⟨-, _, _, hfalse, -⟩⟩
    · cases entry with
      | none => simp at h
      | some index =>
        simp only [gives_bind, gives_resolve, gives_take, gives_symbol] at h
        obtain ⟨target, s, ⟨hresolve, rfl⟩, _, _, htake, symbol, u, ⟨hget, rfl⟩, h⟩ := h
        have hname : s.Translates [.identifier s.token.lexeme] "" u := by
          rw [State.translates_take_iff, Token.word_eq_identifier_iff]
          exact ⟨⟨hkind, rfl⟩, htake⟩
        rw [hname.symbols_eq] at hget
        exact ⟨index, target, symbol, u, hfind, hresolve, hget, hname, h⟩
    · cases hfalse
  · rintro ⟨index, target, symbol, u, hfind, hresolve, hget, hname, h⟩
    rw [← hname.symbols_eq] at hget
    rw [State.translates_take_iff, Token.word_eq_identifier_iff] at hname
    obtain ⟨⟨hkind, -⟩, htake⟩ := hname
    refine ⟨_, s, ⟨rfl, rfl⟩, Or.inl ⟨hkind, some index, s, ⟨hfind, rfl⟩, ?_⟩⟩
    simp only [gives_bind, gives_resolve, gives_take, gives_symbol]
    exact ⟨target, s, ⟨hresolve, rfl⟩, (), u, htake, symbol, u, ⟨hget, rfl⟩, h⟩

/-- A member of this module stands for what its name stands for alone. -/
theorem gives_ownMember_iff (called : String) (index target : Nat) (found : String × Designator) :
    (behindName called index target .thisModule).Gives depth s found t ↔
      ∃ own : String, s.context.denotes? (.plain own) = some found ∧
        s.Translates [.sign .dot, .identifier own] "" t := by
  simp only [behindName, gives_bind, gives_expect_sign_iff, gives_identifier_iff, gives_find,
    Context.denotes?_plain_iff]
  constructor
  · rintro ⟨_, u, hdot, own, _, hown, entry, v, ⟨hfind, rfl⟩, h⟩
    have hall : s.Translates [.sign .dot, .identifier own] "" v := hdot.trans hown
    cases entry with
    | none => simp at h
    | some entry =>
      simp only [gives_bind, gives_moduleName, gives_designate_iff, gives_pure] at h
      obtain ⟨_, v, ⟨rfl, rfl⟩, value, _, ⟨symbol, hget, hvalue, rfl⟩, rfl, rfl⟩ := h
      rw [← hall.context_eq]
      exact ⟨own, ⟨entry, symbol, hfind, hget, hvalue, rfl⟩, hall⟩
  · rintro ⟨own, hdenotes, hall⟩
    rw [← hall.context_eq] at hdenotes
    obtain ⟨entry, symbol, hfind, hget, hvalue, howner⟩ := hdenotes
    obtain ⟨u, hdot, _, hown, rfl⟩ := hall.cut [([.sign .dot], ""), ([.identifier own], "")] rfl rfl
    refine ⟨(), u, hdot, own, t, hown, some entry, t, ⟨hfind, rfl⟩, ?_⟩
    simp only [gives_bind, gives_moduleName, gives_designate_iff, gives_pure]
    exact ⟨_, t, ⟨rfl, rfl⟩, found.2, t, ⟨symbol, hget, hvalue, rfl⟩, Prod.ext howner rfl, rfl⟩

/-- Nothing is known of a member of an imported module but its owner. -/
theorem gives_importedMember_iff
    (called : String) (index target : Nat) (found : String × Designator) :
    (behindName called index target .imported).Gives depth s found t ↔
      ∃ own : String,
        (s.symbols.name target = .ok found.1 ∧
          found.2 = { name := own, type := .unknown, assignable := true }) ∧
        s.Translates [.sign .dot, .identifier own] "" t := by
  simp only [behindName, gives_bind, gives_nameOf, gives_expect_sign_iff, gives_identifier_iff,
    gives_pure]
  constructor
  · rintro ⟨owner, s, ⟨howner, rfl⟩, _, u, hdot, own, t, hown, rfl, rfl⟩
    exact ⟨own, ⟨howner, rfl⟩, hdot.trans hown⟩
  · rintro ⟨own, ⟨howner, hvalue⟩, hall⟩
    obtain ⟨u, hdot, _, hown, rfl⟩ := hall.cut [([.sign .dot], ""), ([.identifier own], "")] rfl rfl
    exact ⟨found.1, s, ⟨howner, rfl⟩, (), u, hdot, own, t, hown, Prod.ext rfl hvalue, rfl⟩

/-- A name that is none of a module stands for its own symbol. -/
theorem gives_ownName_iff
    {kind : Symbol.Kind}
    (hthis : kind ≠ .thisModule)
    (himported : kind ≠ .imported)
    (called : String)
    (index target : Nat)
    (found : String × Designator) :
    (behindName called index target kind).Gives depth s found t ↔
      (∃ symbol, s.symbols.get index = .ok symbol ∧ Context.valueOf? symbol called = some found.2) ∧
      found.1 = s.moduleName ∧
      t = s := by
  have hplain : behindName called index target kind =
      (do return ((← moduleName), ← designate index called)) := by
    cases kind with
    | thisModule => exact absurd rfl hthis
    | imported => exact absurd rfl himported
    | _ => rfl
  simp only [hplain, gives_bind, gives_moduleName, gives_designate_iff, gives_pure]
  constructor
  · rintro ⟨_, s, ⟨rfl, rfl⟩, value, t, ⟨symbol, hget, hvalue, rfl⟩, rfl, rfl⟩
    exact ⟨⟨symbol, hget, hvalue⟩, rfl, rfl⟩
  · rintro ⟨⟨symbol, hget, hvalue⟩, howner, rfl⟩
    exact ⟨_, t, ⟨rfl, rfl⟩, found.2, t, ⟨symbol, hget, hvalue, rfl⟩, Prod.ext howner rfl, rfl⟩

/-- The name in front of a designator, with the module that owns it. -/
theorem gives_designatorName_iff (found : String × Designator) :
    designatorName.Gives depth s found t ↔
      ∃ name : Name, s.context.denotes? name = some found ∧ s.Translates name.spelling "" t := by
  rw [gives_designatorName_iff_name]
  constructor
  · rintro ⟨index, target, symbol, u, hfind, hresolve, hget, hname, h⟩
    by_cases hthis : symbol.kind = .thisModule
    · rw [hthis, gives_ownMember_iff, hname.context_eq] at h
      obtain ⟨own, hdenotes, hown⟩ := h
      refine ⟨.member s.token.lexeme own, ?_, hname.trans hown⟩
      exact (Context.denotes?_member_iff ..).2 ⟨index, target, symbol, hfind, hresolve, hget,
        Or.inl ⟨hthis, hdenotes⟩⟩
    · by_cases himported : symbol.kind = .imported
      · rw [himported, gives_importedMember_iff, hname.symbols_eq] at h
        obtain ⟨own, hvalue, hown⟩ := h
        refine ⟨.member s.token.lexeme own, ?_, hname.trans hown⟩
        exact (Context.denotes?_member_iff ..).2 ⟨index, target, symbol, hfind, hresolve, hget,
          Or.inr ⟨himported, hvalue⟩⟩
      · rw [gives_ownName_iff hthis himported] at h
        obtain ⟨⟨value, hvalue⟩, howner, rfl⟩ := h
        refine ⟨.plain s.token.lexeme, ?_, hname⟩
        rw [hname.symbols_eq] at hvalue
        rw [hname.moduleName_eq] at howner
        exact (Context.denotes?_plain_iff ..).2 ⟨index, value, hfind, hvalue.1, hvalue.2, howner⟩
  · rintro ⟨name, hdenotes, htranslates⟩
    cases name with
    | plain called =>
      obtain ⟨index, symbol, hfind, hget, hvalue, howner⟩ :=
        (Context.denotes?_plain_iff ..).1 hdenotes
      have hname : s.Translates [.identifier called] "" t := htranslates
      obtain ⟨-, rfl⟩ := (Token.word_eq_identifier_iff ..).1 hname.token_word
      have hkind : symbol.kind ≠ .thisModule ∧ symbol.kind ≠ .imported := by
        constructor <;> (intro hkind; simp [Context.valueOf?, hkind] at hvalue)
      refine ⟨index, index, symbol, t, hfind, Context.resolve_of_valueOf? hget hvalue, hget, hname,
        ?_⟩
      rw [← hname.context_eq] at hget howner
      exact (gives_ownName_iff hkind.1 hkind.2 ..).2 ⟨⟨symbol, hget, hvalue⟩, howner, rfl⟩
    | member called own =>
      obtain ⟨index, target, symbol, hfind, hresolve, hget, h⟩ :=
        (Context.denotes?_member_iff ..).1 hdenotes
      obtain ⟨u, hname, _, hown, rfl⟩ := htranslates.cut
        [([.identifier called], ""), ([.sign .dot, .identifier own], "")] rfl rfl
      obtain ⟨-, rfl⟩ := (Token.word_eq_identifier_iff ..).1 hname.token_word
      refine ⟨index, target, symbol, u, hfind, hresolve, hget, hname, ?_⟩
      obtain ⟨hthis, hplain⟩ | ⟨himported, hvalue⟩ := h
      · rw [hthis, gives_ownMember_iff, hname.context_eq]
        exact ⟨own, hplain, hown⟩
      · rw [← hname.context_eq] at hvalue
        rw [himported, gives_importedMember_iff]
        exact ⟨own, hvalue, hown⟩

/-! ### Indices -/

section Indices

variable (hexpression : Recognizes depth expression Phrases.expressions)
include hexpression

/-- One index behind a designator, or none. -/
theorem gives_indexed_iff
    (hs : s.remaining < depth) (d : Designator) (next : Designator ⊕ Designator) :
    (indexed d).Gives depth s next t ↔
      (∃ (index : Expression) (type position : DataType),
        s.context.types.element d.type = .ok type ∧
        index.type? s.context = some position ∧
        s.context.types.compatible position .integer = true ∧
        next = .inl { d with type, callType := .unknown, parameters := none } ∧
        s.Translates (.sign .openBracket :: index.spelling ++ [.sign .closeBracket])
          ("[" ++ index.text s.context ++ "]") t) ∨
      (s.token.kind ≠ .sign .openBracket ∧ next = .inr d ∧ t = s) := by
  have henclosed := gives_enclosed_iff (t := t) hexpression (Nat.le_of_lt hs)
    (.sign .openBracket) (.sign .closeBracket) (by decide) (by decide) [] [] "[" "]"
  rw [indexed, gives_if_accept_sign_iff]
  simp only [gives_bind, gives_element, gives_write_iff, gives_requireCompatible,
    gives_expect_sign_iff, gives_pure]
  constructor
  · rintro (⟨u, hopen, type, u, ⟨helement, rfl⟩, _, v, hwrite, position, w, hindex, _, w,
      ⟨hcompatible, rfl⟩, _, x, hclose,
      _, t, hwrite', rfl, rfl⟩ | ⟨hkind, rfl, rfl⟩)
    · rw [hopen.types_eq] at helement
      obtain ⟨index, htype, hfits, htranslates⟩ :=
        (henclosed position fun c => c.types.compatible position .integer = true).1
          ⟨v, w, hopen.trans hwrite, hindex, hcompatible, hclose.trans hwrite'⟩
      refine Or.inl ⟨index, type, position, helement, htype, hfits, rfl, ?_⟩
      simpa [String.append_assoc] using htranslates
    · exact Or.inr ⟨hkind, rfl, rfl⟩
  · rintro (⟨index, type, position, helement, htype, hfits, rfl, htranslates⟩ | ⟨hkind, rfl, rfl⟩)
    · obtain ⟨v, w, hopen, hindex, hcompatible, hclose⟩ :=
        (henclosed position fun c => c.types.compatible position .integer = true).2
          ⟨index, htype, hfits, by simpa [String.append_assoc] using htranslates⟩
      obtain ⟨u, hopen, _, hwrite, rfl⟩ := hopen.cut [([.sign .openBracket], ""), ([], "[")] rfl rfl
      obtain ⟨x, hclose, _, hwrite', rfl⟩ :=
        hclose.cut [([.sign .closeBracket], ""), ([], "]")] rfl rfl
      rw [← hopen.context_eq] at helement
      exact Or.inl ⟨u, hopen, type, u, ⟨helement, rfl⟩, (), v, hwrite, position, w, hindex, (), w,
        ⟨hcompatible, rfl⟩, (), x, hclose, (), t, hwrite', rfl, rfl⟩
    · exact Or.inr ⟨hkind, rfl, rfl⟩

omit hexpression in
theorem advancing_indexed : Advancing depth indexed := by
  intro d s d' t h
  rw [indexed, gives_bind] at h
  obtain ⟨seen, u, haccept, h⟩ := h
  rw [gives_accept_sign_iff] at haccept
  obtain ⟨hopen, rfl⟩ | ⟨-, rfl, rfl⟩ := haccept
  · exact Nat.lt_of_le_of_lt h.remaining_le (hopen.remaining_lt (by decide))
  · simp at h

/-- Indices up to the first token that begins none. -/
theorem turns_indexed_iff (hs : s.remaining < depth) (d d' : Designator) :
    Turns depth indexed d s d' t ↔
      ∃ indices : List Expression,
        indexed? s.context d indices = some d' ∧
        t.token.kind ≠ .sign .openBracket ∧
        s.Translates (indicesSpelling indices) (indicesText s.context indices) t := by
  constructor
  · intro h
    induction h with
    | @last d s t d' hturn =>
      rw [gives_indexed_iff hexpression hs] at hturn
      obtain ⟨_, _, _, -, -, -, hfalse, -⟩ | ⟨hkind, hd, rfl⟩ := hturn
      · cases hfalse
      · cases hd
        exact ⟨[], by simp [indexed?], hkind, by simpa [indicesSpelling, indicesText] using .refl t⟩
    | @more d next s t u d' hturn hrest ih =>
      rw [gives_indexed_iff hexpression hs] at hturn
      obtain ⟨index, type, position, helement, htype, hfits, hnext, hindex⟩ | ⟨-, hfalse, -⟩ :=
        hturn
      · cases hnext
        obtain ⟨indices, hvalue, hkind, htranslates⟩ :=
          ih (Nat.lt_of_le_of_lt hindex.remaining_le hs)
        rw [hindex.context_eq] at hvalue htranslates
        refine ⟨index :: indices, ?_, hkind, ?_⟩
        · simp [indexed?, helement, htype, hfits, hvalue, Except.toOption]
        · simpa [indicesSpelling, indicesText, String.append_assoc] using hindex.trans htranslates
      · cases hfalse
  · rintro ⟨indices, hvalue, hkind, htranslates⟩
    induction indices generalizing d s with
    | nil =>
      obtain rfl : t = s := by
        simpa [indicesSpelling, indicesText, State.translates_nil_iff] using htranslates
      refine .last ?_
      rw [gives_indexed_iff hexpression hs]
      exact Or.inr ⟨hkind, by simpa [indexed?, eq_comm] using hvalue, rfl⟩
    | cons index indices ih =>
      obtain ⟨u, hindex, _, hindices, rfl⟩ := htranslates.cut
        [(.sign .openBracket :: index.spelling ++ [.sign .closeBracket],
          "[" ++ index.text s.context ++ "]"),
          (indicesSpelling indices, indicesText s.context indices)]
        (by simp [indicesSpelling]) (by simp [indicesText, String.append_assoc])
      simp only [indexed?, Option.bind_eq_bind, Option.bind_eq_some_iff, toOption_eq_some_iff,
        Option.ite_none_right_eq_some] at hvalue
      obtain ⟨type, helement, position, htype, hfits, hvalue⟩ := hvalue
      rw [← hindex.context_eq] at hvalue hindices
      refine .more ?_ (ih (Nat.lt_of_le_of_lt hindex.remaining_le hs) _ hvalue hindices)
      rw [gives_indexed_iff hexpression hs]
      exact Or.inl ⟨index, type, position, helement, htype, hfits, rfl, hindex⟩

/-- A name and its indices. -/
theorem gives_designator_iff (hs : s.remaining ≤ depth) (d : Designator) :
    designator.Gives depth s d t ↔
      ∃ target : Grammar.Designator,
        target.value? s.context = some d ∧
        t.token.kind ≠ .sign .openBracket ∧
        s.Translates target.spelling (target.text s.context) t := by
  simp only [designator, gives_bind, gives_designatorName_iff, gives_write_iff,
    gives_turns_iff advancing_indexed]
  have hpast : ∀ (name : Name) (text : String) (u : State),
      s.Translates name.spelling text u → u.remaining < depth := by
    intro name text u hname
    obtain ⟨first, words, hspelling⟩ := name.spelling_eq_cons
    rw [hspelling] at hname
    exact Nat.lt_of_lt_of_le (hname.remaining_lt (by simp [Word.identifier])) hs
  constructor
  · rintro ⟨found, u, ⟨name, hdenotes, hname⟩, _, v, hwrite, hturns⟩
    have hall : s.Translates name.spelling (Target.mangle found.1 found.2.name) v := by
      simpa using hname.trans hwrite
    rw [turns_indexed_iff hexpression (hpast _ _ _ hall), hall.context_eq] at hturns
    obtain ⟨indices, hvalue, hkind, htranslates⟩ := hturns
    refine ⟨.mk name indices, ?_, hkind, ?_⟩
    · simpa [Designator.value?, hdenotes] using hvalue
    · rw [Designator.spelling, Designator.text, Context.owner_of_denotes? hdenotes,
        ← Context.name_of_denotes? hdenotes]
      exact hall.trans htranslates
  · rintro ⟨⟨name, indices⟩, hvalue, hkind, htranslates⟩
    simp only [Designator.value?, Option.bind_eq_bind, Option.bind_eq_some_iff] at hvalue
    obtain ⟨found, hdenotes, hvalue⟩ := hvalue
    rw [Designator.spelling, Designator.text, Context.owner_of_denotes? hdenotes,
      ← Context.name_of_denotes? hdenotes] at htranslates
    obtain ⟨u, hname, v, hwrite, _, hindices, rfl⟩ := htranslates.cut
      [(name.spelling, ""), ([], Target.mangle found.1 found.2.name),
        (indicesSpelling indices, indicesText s.context indices)]
      (by simp) (by simp)
    have hall := hname.trans hwrite
    rw [← hall.context_eq] at hvalue hindices
    refine ⟨found, u, ⟨name, hdenotes, hname⟩, (), v, hwrite, ?_⟩
    rw [turns_indexed_iff hexpression (hpast name _ _ (by simpa using hall))]
    exact ⟨indices, hvalue, hkind, hindices⟩

end Indices

/-! ### Calls -/

theorem gives_matchScalars_iff (parameters arguments : List DataType) (a : Unit) :
    (matchScalars parameters arguments).Gives depth s a t ↔
      ((parameters.zip arguments).all fun pair => serves s.context pair.1 pair.2) = true ∧
      t = s := by
  induction parameters generalizing arguments s with
  | nil => simp [matchScalars]
  | cons parameter parameters ih =>
    cases arguments with
    | nil => simp [matchScalars]
    | cons argument arguments =>
      simp only [matchScalars, gives_bind, gives_form, gives_ite, gives_requireCompatible, ih,
        List.zip_cons_cons, List.all_cons, Bool.and_eq_true]
      constructor
      · rintro ⟨_, s, ⟨rfl, rfl⟩, ⟨-, _, s, ⟨hfits, rfl⟩, hall, rfl⟩ | ⟨hother, hall, rfl⟩⟩
        · exact ⟨⟨by rw [serves, Bool.or_eq_true]; exact Or.inr hfits, hall⟩, rfl⟩
        · refine ⟨⟨?_, hall⟩, rfl⟩
          rw [← Bool.and_eq_true, Bool.not_eq_true] at hother
          rw [serves, Bool.or_eq_true, Bool.not_eq_true']
          exact Or.inl hother
      · rintro ⟨⟨hserves, hall⟩, rfl⟩
        refine ⟨_, t, ⟨rfl, rfl⟩, ?_⟩
        rw [serves, Bool.or_eq_true, Bool.not_eq_true'] at hserves
        obtain hother | hfits := hserves
        · refine Or.inr ⟨?_, hall, rfl⟩
          rw [← Bool.and_eq_true, Bool.not_eq_true]
          exact hother
        · by_cases hscalar : parameter.isBuiltin = true ∧
            decide (t.types.form parameter = .scalar) = true
          · exact Or.inl ⟨hscalar, (), t, ⟨hfits, rfl⟩, hall, rfl⟩
          · exact Or.inr ⟨hscalar, hall, rfl⟩

/--
The check of a call: as many arguments as parameters, and the built-in scalar parameters served.
-/
theorem gives_matchArguments_iff (d : Designator) (arguments : List DataType) (a : Unit) :
    (matchArguments d arguments).Gives depth s a t ↔
      suits s.context d.parameters arguments = true ∧ t = s := by
  unfold matchArguments suits
  cases d.parameters with
  | none => simp
  | some parameters =>
    simp only [gives_ite, gives_matchScalars_iff, gives_reject, and_false, or_false,
      Bool.and_eq_true, decide_eq_true_eq, and_assoc]

theorem gives_listComma_iff (seen : Bool) :
    listComma.Gives depth s seen t ↔
      (s.Translates [.sign .comma] ", " t ∧ seen = true) ∨
      (s.token.kind ≠ .sign .comma ∧ t = s ∧ seen = false) := by
  rw [listComma, gives_if_accept_sign_iff]
  simp only [gives_bind, gives_write_iff, gives_pure]
  constructor
  · rintro (⟨u, hcomma, _, v, hwrite, rfl, rfl⟩ | ⟨hkind, rfl, rfl⟩)
    · exact Or.inl ⟨by simpa using hcomma.trans hwrite, rfl⟩
    · exact Or.inr ⟨hkind, rfl, rfl⟩
  · rintro (⟨hcomma, rfl⟩ | ⟨hkind, rfl, rfl⟩)
    · obtain ⟨u, hcomma, _, hwrite, rfl⟩ := hcomma.cut [([.sign .comma], ""), ([], ", ")] rfl rfl
      exact Or.inl ⟨u, hcomma, (), t, hwrite, rfl, rfl⟩
    · exact Or.inr ⟨hkind, rfl, rfl⟩

section Arguments

variable (hexpression : Recognizes depth expression Phrases.expressions)
include hexpression

/-- One or more arguments in front of the closing parenthesis. -/
theorem items_arguments_iff (hs : s.remaining < depth) (types : List DataType) :
    (Items depth expression listComma s types t ∧ t.token.kind = .sign .closeParen) ↔
      ∃ argument others,
        argumentTypes? s.context (argument :: others) = some types ∧
        t.token.kind = .sign .closeParen ∧
        s.Translates (argumentsSpelling (argument :: others))
          (argumentsText s.context (argument :: others)) t := by
  constructor
  · rintro ⟨hitems, hkind⟩
    induction hitems with
    | @last s t u type hitem hmore =>
      rw [gives_expression_iff hexpression hs] at hitem
      obtain ⟨argument, htype, -, htranslates⟩ := hitem
      rw [gives_listComma_iff] at hmore
      obtain ⟨-, hfalse⟩ | ⟨-, rfl, -⟩ := hmore
      · cases hfalse
      · refine ⟨argument, [], by simp [argumentTypes?, htype], hkind, ?_⟩
        simpa [argumentsSpelling, argumentsText] using htranslates
    | @cons s t u v type types hitem hmore hrest ih =>
      rw [gives_expression_iff hexpression hs] at hitem
      obtain ⟨argument, htype, -, htranslates⟩ := hitem
      rw [gives_listComma_iff] at hmore
      obtain ⟨hcomma, -⟩ | ⟨-, -, hfalse⟩ := hmore
      · have hall := htranslates.trans hcomma
        obtain ⟨next, others, htypes, -, hothers⟩ :=
          ih (Nat.lt_of_le_of_lt hall.remaining_le hs) hkind
        rw [hall.context_eq] at htypes hothers
        refine ⟨argument, next :: others, by rw [argumentTypes?]; simp [htype, htypes], hkind, ?_⟩
        simpa [argumentsSpelling, argumentsText, String.append_assoc] using hall.trans hothers
      · cases hfalse
  · rintro ⟨argument, others, htypes, hkind, htranslates⟩
    refine ⟨?_, hkind⟩
    induction others generalizing argument s types with
    | nil =>
      simp only [argumentTypes?, Option.bind_eq_bind, Option.bind_eq_some_iff, Option.pure_def,
        Option.some.injEq] at htypes
      obtain ⟨type, htype, _, rfl, rfl⟩ := htypes
      rw [argumentsSpelling, argumentsText] at htranslates
      refine .last (u := t) ?_ ?_
      · rw [gives_expression_iff hexpression hs]
        exact ⟨argument, htype, argument.stopsBefore_of_ends (by rw [hkind]; decide), htranslates⟩
      · rw [gives_listComma_iff]
        exact Or.inr ⟨by simp [hkind], rfl, rfl⟩
    | cons next others ih =>
      rw [argumentTypes?] at htypes
      simp only [Option.bind_eq_bind, Option.bind_eq_some_iff, Option.pure_def, Option.some.injEq]
        at htypes
      obtain ⟨type, htype, types, htypes, rfl⟩ := htypes
      obtain ⟨u, hargument, v, hcomma, _, hothers, rfl⟩ := htranslates.cut
        [(argument.spelling, argument.text s.context), ([.sign .comma], ", "),
          (argumentsSpelling (next :: others), argumentsText s.context (next :: others))]
        (by simp [argumentsSpelling]) (by simp [argumentsText, String.append_assoc])
      have hall := hargument.trans hcomma
      rw [← hall.context_eq] at htypes hothers
      refine .cons (u := u) (v := v) ?_ ?_
        (ih (Nat.lt_of_le_of_lt hall.remaining_le hs) _ _ htypes hothers)
      · rw [gives_expression_iff hexpression hs]
        exact ⟨argument, htype, argument.stopsBefore_of_ends (by rw [hcomma.token_kind]; decide),
          hargument⟩
      · rw [gives_listComma_iff]
        exact Or.inl ⟨hcomma, rfl⟩

/-- Arguments in parentheses, there may be none. -/
theorem gives_arguments_iff (hs : s.remaining < depth) (callee : Designator) (a : Unit) :
    (arguments callee).Gives depth s a t ↔
      ∃ (list : List Expression) (types : List DataType),
        argumentTypes? s.context list = some types ∧
        suits s.context callee.parameters types = true ∧
        s.Translates (.sign .openParen :: argumentsSpelling list ++ [.sign .closeParen])
          ("(" ++ argumentsText s.context list ++ ")") t := by
  have hadvancing : ∀ (s : State) (type : DataType) (u v : State),
      expression.Gives depth s type u → listComma.Gives depth u true v →
        v.remaining < s.remaining := by
    intro s type u v hitem hmore
    rw [gives_listComma_iff] at hmore
    obtain ⟨hcomma, -⟩ | ⟨-, -, hfalse⟩ := hmore
    · exact Nat.lt_of_lt_of_le (hcomma.remaining_lt (by decide)) hitem.remaining_le
    · cases hfalse
  simp only [arguments, gives_bind, gives_expect_sign_iff, gives_write_iff, gives_sees, gives_ite,
    gives_separated_iff hadvancing, gives_pure, gives_matchArguments_iff]
  constructor
  · rintro ⟨_, u, hopen, _, v, hwrite, _, v, ⟨rfl, rfl⟩, h⟩
    have hall := hopen.trans hwrite
    have hv : v.remaining < depth := Nat.lt_of_le_of_lt hall.remaining_le hs
    obtain ⟨-, _, v, ⟨rfl, rfl⟩, _, w, hclose, _, t, hwrite', hsuits, rfl⟩ |
      ⟨-, types, w, hitems, _, x, hclose, _, t, hwrite', hsuits, rfl⟩ := h
    · have hall := (hall.trans hclose).trans hwrite'
      rw [hall.context_eq] at hsuits
      exact ⟨[], [], by simp [argumentTypes?], hsuits,
        by simpa [argumentsSpelling, argumentsText] using hall⟩
    · obtain ⟨argument, others, htypes, -, htranslates⟩ :=
        (items_arguments_iff hexpression hv types).1 ⟨hitems, hclose.token_kind⟩
      rw [hall.context_eq] at htypes htranslates
      have hall := (hall.trans htranslates).trans (hclose.trans hwrite')
      rw [hall.context_eq] at hsuits
      exact ⟨argument :: others, types, htypes, hsuits, by simpa [String.append_assoc] using hall⟩
  · rintro ⟨list, types, htypes, hsuits, htranslates⟩
    obtain ⟨u, hopen, v, hwrite, w, hlist, x, hclose, _, hwrite', rfl⟩ := htranslates.cut
      [([.sign .openParen], ""), ([], "("), (argumentsSpelling list, argumentsText s.context list),
        ([.sign .closeParen], ""), ([], ")")]
      (by simp) (by simp [String.append_assoc])
    have hall := hopen.trans hwrite
    have hv : v.remaining < depth := Nat.lt_of_le_of_lt hall.remaining_le hs
    rw [← htranslates.context_eq] at hsuits
    refine ⟨(), u, hopen, (), v, hwrite, _, v, ⟨rfl, rfl⟩, ?_⟩
    cases list with
    | nil =>
      obtain rfl : types = [] := by simpa [argumentTypes?, eq_comm] using htypes
      obtain rfl : w = v := by
        simpa [argumentsSpelling, argumentsText, State.translates_nil_iff] using hlist
      exact Or.inl ⟨decide_eq_true hclose.token_kind, [], w, ⟨rfl, rfl⟩, (), x, hclose, (), t,
        hwrite', hsuits, rfl⟩
    | cons argument others =>
      rw [← hall.context_eq] at htypes hlist
      obtain ⟨hitems, -⟩ := (items_arguments_iff hexpression hv types).2
        ⟨argument, others, htypes, hclose.token_kind, hlist⟩
      refine Or.inr ⟨?_, types, w, hitems, (), x, hclose, (), t, hwrite', hsuits, rfl⟩
      obtain ⟨word, words, hspelling, hopens⟩ := argumentsSpelling_eq_cons argument others
      rw [hspelling] at hlist
      have hkind := hlist.token_kind
      intro hseen
      rw [decide_eq_true_eq, hkind] at hseen
      simp [hseen, opensExpression, opensFactor] at hopens

end Arguments

end Compilation
end Oberon
