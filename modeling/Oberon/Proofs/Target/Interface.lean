import Oberon.Proofs.Scanning
import Oberon.Proofs.Target.InterfaceLines
import Oberon.Proofs.Translation.Module

/-!
# The names in an interface

Which names of a compiled module the lines of its interface declare, and which they use.

**Closed modules.**  An item declares its name, and a procedure also its parameters.  Its types use
names of the module: constants as the sizes of arrays, and members of the module under its own name.
A module is closed if every exported item uses only names that are exported in front of it, the item
itself and its parameters.  The include guard and the shift macro are always known.

Whether an item is exported depends on its own mark alone.  So a module need not be closed: the size
of an exported array may be a constant that is not exported.

**Main results.**
* `Item.declaredBy_line`, `Item.namesIn_line`: the line of an item declares and uses the mangled
  names of the item.
* `selfContained_interface_iff`: the interface of a compiled module is self-contained exactly if the
  module is closed.
-/

namespace Oberon
namespace Grammar

open Target

/-! ### What items declare and use -/

/-- The names of the members that belong to a module. -/
def namesOf (module : String) (members : List Qualified) : List String :=
  (members.filter (·.module = module)).map Qualified.name

/-- The names of a module in the size of an array. -/
def ArraySize.used (module : String) : ArraySize → List String
  | constant name => [name]
  | size => namesOf module size.members

/-- The names of a module in the declarators of a type. -/
def TypeExpression.used (module : String) : TypeExpression → List String
  | array size elements => size.used module ++ namesOf module elements.members
  | plain type => namesOf module type.members

def Heading.used (module : String) (h : Heading) : List String :=
  h.parameterList.flatMap (fun p => p.2.used module) ++
    h.result.elim [] (TypeExpression.used module)

namespace Item

/-- The name of an item, in front of those of its parameters. -/
def declared : Item → List String
  | procedure heading _ => heading.name.name :: heading.parameterList.map Prod.fst
  | item => [item.name.name]

/-- The names of a module that the types of an item use. -/
def used (module : String) : Item → List String
  | constant _ => []
  | .variable _ type => type.used module
  | procedure heading _ => heading.used module

end Item

/--
Exported items use only names of the module that are exported in front of them, and their own; the
head declares two more.
-/
def Module.InterfaceClosed (m : Module) : Prop :=
  DeclaredBeforeUse Item.declared (Item.used m.name) ["H", "ASH"] (m.items.filter Item.exported)

variable {module : String} {lexemes : List Lexeme}

/-! ### The names that a line declares -/

/-- Behind the lexemes no type goes on. -/
def Detached (lexemes : List Lexeme) : Prop :=
  namesBehindTypes true lexemes = namesBehindTypes false lexemes

theorem detached_cons
    {lexeme : Lexeme} {rest : List Lexeme} (h : lexeme.detaches = true) :
    Detached (lexeme :: rest) := by
  rw [Detached, namesBehindTypes_cons h, namesBehindTypes_cons h]

theorem ElementType.namesBehindTypes_front {e : ElementType} {name : String} :
    namesBehindTypes false (e.front ++ .word name :: lexemes) =
      name :: namesBehindTypes true lexemes := by
  cases e with
  | pointer base => cases base <;> rfl
  | procedure => rfl
  | basic type => rfl

theorem TypeExpression.namesBehindTypes_front {type : TypeExpression} {name : String} :
    namesBehindTypes false (type.front ++ .word name :: lexemes) =
      name :: namesBehindTypes true lexemes := by
  cases type <;> exact ElementType.namesBehindTypes_front

theorem ElementType.namesBehindTypes_back {e : ElementType} (h : Detached lexemes) (behind : Bool) :
    namesBehindTypes behind (e.back ++ lexemes) = namesBehindTypes false lexemes := by
  cases e with
  | procedure => rfl
  | pointer base => cases behind <;> simp [back, h.symm]
  | basic type => cases behind <;> simp [back, h.symm]

theorem TypeExpression.namesBehindTypes_back
    {type : TypeExpression} (h : Detached lexemes) (behind : Bool) :
    namesBehindTypes behind (type.back module ++ lexemes) = namesBehindTypes false lexemes := by
  cases type with
  | array size elements => exact ElementType.namesBehindTypes_back h false
  | plain type => exact ElementType.namesBehindTypes_back h behind

theorem TypeExpression.namesBehindTypes_lexemes
    {type : TypeExpression} {name : String} (h : Detached lexemes) :
    namesBehindTypes false (type.lexemes module name ++ lexemes) =
      mangle module name :: namesBehindTypes false lexemes := by
  rw [TypeExpression.lexemes, List.append_assoc, List.cons_append, namesBehindTypes_front,
    namesBehindTypes_back h]

theorem namesBehindTypes_parameters
    {parameters : List (String × TypeExpression)} (h : Detached lexemes) :
    namesBehindTypes false (parameterLexemes module parameters ++ lexemes) =
      (parameters.map Prod.fst).map (mangle module) ++ namesBehindTypes false lexemes := by
  have hlist : ∀ {parameters : List (String × TypeExpression)},
      namesBehindTypes false ([Lexeme.comma].intercalate (parameters.map
        fun p => p.2.lexemes module p.1) ++ lexemes) =
        (parameters.map Prod.fst).map (mangle module) ++ namesBehindTypes false lexemes := by
    intro parameters
    induction parameters with
    | nil => simp
    | cons first others ih =>
      cases others with
      | nil => simp [TypeExpression.namesBehindTypes_lexemes h]
      | cons second others =>
        simp only [List.map_cons, List.intercalate_cons_cons, List.append_assoc, List.nil_append,
          List.cons_append] at ih ⊢
        rw [TypeExpression.namesBehindTypes_lexemes (detached_cons rfl), namesBehindTypes_cons rfl,
          ih]
  unfold parameterLexemes
  split
  · rename_i hnil
    subst hnil
    exact h
  · exact hlist

theorem Item.declaredBy_line (item : Item) :
    declaredBy (item.line module) = item.declared.map (mangle module) := by
  cases item with
  | constant c => rfl
  | «variable» name type =>
    have hnames : namesBehindTypes false (type.lexemes module name.name ++ [.other ";"]) =
        [mangle module name.name] :=
      TypeExpression.namesBehindTypes_lexemes (detached_cons rfl)
    simp [line, declaredBy, hnames, declared, Item.name]
  | procedure heading body =>
    have hfront : ∀ lexemes, namesBehindTypes false
        (heading.result.elim [.word "void"] TypeExpression.front ++
          .word (mangle module heading.name.name) :: lexemes) =
          mangle module heading.name.name :: namesBehindTypes true lexemes := by
      intro lexemes
      cases heading.result with
      | none => rfl
      | some type => exact TypeExpression.namesBehindTypes_front
    have hback : namesBehindTypes false (heading.result.elim [] (TypeExpression.back module) ++
        [.other ";"]) =
        [] := by
      cases heading.result with
      | none => rfl
      | some type => exact TypeExpression.namesBehindTypes_back (detached_cons rfl) false
    simp only [line, declaredBy, if_true, Heading.lexemes, List.append_assoc, List.cons_append]
    rw [hfront, namesBehindTypes_cons rfl, namesBehindTypes_parameters (detached_cons rfl),
      namesBehindTypes_cons rfl, hback]
    simp [declared]

/-! ### The names that a line uses -/

theorem underscore_mem_of_ofModule {name : String} (h : OfModule module name) : '_' ∈ name.toList :=
  h.subset (by simp)

theorem ofModule_mangle_iff
    {other name : String}
    (hmodule : Alphanumeric module.toList)
    (hother : Alphanumeric other.toList) :
    OfModule module (mangle other name) ↔ other = module := by
  -- Up to the first underscore stands the name of the module.
  have hfirst : ∀ {front more : List Char}, Alphanumeric front →
      (front ++ '_' :: more).takeWhile (· ≠ '_') = front := by
    intro front more hfront
    rw [List.takeWhile_append_of_pos, List.takeWhile_cons_of_neg (by simp), List.append_nil]
    intro c hc
    have hne : c ≠ '_' := by
      rintro rfl
      exact hfront.underscore_notMem hc
    simpa using hne
  constructor
  · rintro ⟨more, hmore⟩
    have hchars : module.toList ++ '_' :: more = other.toList ++ '_' :: name.toList := by
      simpa [mangle] using hmore
    have heq := congrArg (List.takeWhile (· ≠ '_')) hchars
    rw [hfirst hmodule, hfirst hother] at heq
    exact String.toList_inj.1 heq.symm
  · rintro rfl
    exact ⟨name.toList, by simp [mangle]⟩

theorem mangle_injective (module : String) : Function.Injective (mangle module) := by
  intro first second h
  have hchars := congrArg String.toList h
  simpa [mangle, String.toList_inj] using hchars

/-- The names of the module among the words are the given ones. -/
def NamesIn (module : String) (lexemes : List Lexeme) (names : List String) : Prop :=
  ∀ word, word ∈ wordsIn lexemes ∧ OfModule module word ↔ word ∈ names.map (mangle module)

namespace NamesIn

variable {first second : List Lexeme} {names others : List String}

theorem append (h : NamesIn module first names) (hsecond : NamesIn module second others) :
    NamesIn module (first ++ second) (names ++ others) := by
  intro word
  rw [wordsIn_append, List.mem_append, or_and_right, h word, hsecond word, List.map_append,
    List.mem_append]

theorem congr (h : NamesIn module first names) (hnames : ∀ name, name ∈ names ↔ name ∈ others) :
    NamesIn module first others := by
  intro word
  rw [h word]
  simp [hnames]

/-- Lexemes without underscores hold no names. -/
theorem of_plain (h : ∀ word ∈ wordsIn first, '_' ∉ word.toList) : NamesIn module first [] := by
  intro word
  simp only [List.map_nil, List.not_mem_nil, iff_false, not_and]
  intro hword hmodule
  exact h word hword (underscore_mem_of_ofModule hmodule)

theorem own (hmodule : Alphanumeric module.toList) (name : String) :
    NamesIn module [.word (mangle module name)] [name] := by
  intro word
  simp only [wordsIn, List.mem_singleton, List.map_cons, List.map_nil]
  refine ⟨fun h => h.1, ?_⟩
  rintro rfl
  exact ⟨rfl, (ofModule_mangle_iff hmodule hmodule).2 rfl⟩

end NamesIn

theorem Qualified.namesIn_text
    {q : Qualified}
    (hmodule : Alphanumeric module.toList)
    (hq : Alphanumeric q.module.toList) :
    NamesIn module [.word q.text] (namesOf module [q]) := by
  intro word
  by_cases howner : q.module = module
  · have hown := NamesIn.own hmodule q.name word
    simpa [namesOf, howner, text] using hown
  · have hother : ¬ OfModule module q.text := fun h => howner ((ofModule_mangle_iff hmodule hq).1 h)
    simp only [wordsIn, List.mem_singleton, namesOf, howner, decide_false, List.filter_cons_of_neg,
      List.filter_nil, List.map_nil, List.not_mem_nil, iff_false, not_and, Bool.false_eq_true,
      not_false_eq_true]
    rintro rfl
    exact hother

theorem BasicType.namesIn_text
    {b : BasicType}
    (hmodule : Alphanumeric module.toList)
    (h : LegiblePhrase b.spelling b.members) :
    NamesIn module [.word b.text] (namesOf module b.members) := by
  cases b with
  | builtin word =>
    have hplain := (isWord_builtinType (Option.eq_some_of_isSome word.2)).2
    exact NamesIn.of_plain (by simpa [wordsIn, text] using hplain)
  | undeclared name =>
    have hname := h.words (.identifier name) (by simp [spelling])
    exact NamesIn.of_plain (by simpa [wordsIn, text] using hname.2.underscore_notMem)
  | member q => exact q.namesIn_text hmodule (h.modules q (by simp [members]))

theorem ElementType.namesIn_front
    {e : ElementType}
    (hmodule : Alphanumeric module.toList)
    (h : LegiblePhrase e.spelling e.members) :
    NamesIn module e.front (namesOf module e.members) := by
  cases e with
  | pointer base =>
    cases base with
    | none => exact NamesIn.of_plain (by simp [front, wordsIn])
    | some base =>
      have hbase : LegiblePhrase base.spelling base.members :=
        h.mono (by simp [spelling]) (by simp [members])
      exact base.namesIn_text hmodule hbase
  | procedure => exact NamesIn.of_plain (by simp [front, wordsIn])
  | basic type => exact type.namesIn_text hmodule h

theorem ElementType.namesIn_back (e : ElementType) : NamesIn module e.back [] := by
  cases e <;> exact NamesIn.of_plain (by simp [back, wordsIn])

theorem ArraySize.namesIn_text
    {size : ArraySize}
    (hmodule : Alphanumeric module.toList)
    (h : LegiblePhrase size.spelling size.members) :
    NamesIn module [.word (size.text module)] (size.used module) := by
  cases size with
  | literal lexeme =>
    have hnumeral : IsNumeral lexeme.toList :=
      h.words (.number .integer, lexeme) (by simp [spelling])
    exact NamesIn.of_plain (by simpa [wordsIn, text] using hnumeral.plain)
  | constant name => exact NamesIn.own hmodule name
  | member q => exact q.namesIn_text hmodule (h.modules q (by simp [members]))

namespace TypeExpression

variable {type : TypeExpression}

/-- In front of a name stand names of other types, and behind it the size of an array. -/
theorem namesIn_around
    (hmodule : Alphanumeric module.toList)
    (h : LegiblePhrase type.spelling type.members) :
    NamesIn module (type.front ++ type.back module) (type.used module) := by
  cases type with
  | array size elements =>
    have hsize := size.namesIn_text hmodule (legiblePhrase_size h)
    have hfront := elements.namesIn_front hmodule (legiblePhrase_elements h)
    have hback : NamesIn module (back module (array size elements)) (size.used module ++ []) :=
      hsize.append elements.namesIn_back
    exact (hfront.append hback).congr fun name => by simp [used, or_comm]
  | plain type =>
    have hfront := type.namesIn_front hmodule h
    exact (hfront.append type.namesIn_back).congr fun name => by simp [used]

theorem namesIn_lexemes
    (hmodule : Alphanumeric module.toList)
    (h : LegiblePhrase type.spelling type.members)
    (name : String) :
    NamesIn module (type.lexemes module name) (name :: type.used module) := by
  intro word
  have hname := NamesIn.own hmodule name word
  have haround := namesIn_around hmodule h word
  simp only [lexemes, wordsIn_append, List.mem_append, wordsIn, List.map_cons, List.mem_cons,
    ← haround] at hname ⊢
  grind

end TypeExpression

theorem namesIn_parameters
    {parameters : List (String × TypeExpression)}
    (hmodule : Alphanumeric module.toList)
    (hlegible : ∀ p ∈ parameters, LegiblePhrase p.2.spelling p.2.members) :
    NamesIn module (parameterLexemes module parameters) (parameters.map Prod.fst ++
      parameters.flatMap fun p => p.2.used module) := by
  have hlist : NamesIn module
      ([Lexeme.comma].intercalate (parameters.map fun p => p.2.lexemes module p.1))
      (parameters.flatMap fun p => p.1 :: p.2.used module) := by
    induction parameters with
    | nil => exact NamesIn.of_plain (by simp [wordsIn])
    | cons first others ih =>
      have hfirst :=
        TypeExpression.namesIn_lexemes hmodule (hlegible first List.mem_cons_self) first.1
      have hothers := ih fun p hp => hlegible p (List.mem_cons_of_mem _ hp)
      cases others with
      | nil => simpa using hfirst
      | cons second others =>
        rw [List.map_cons, List.map_cons, List.intercalate_cons_cons, List.append_assoc]
        exact hfirst.append hothers
  unfold parameterLexemes
  split
  · rename_i hnil
    subst hnil
    exact NamesIn.of_plain (by simp [wordsIn])
  · refine hlist.congr fun name => ?_
    simp only [List.mem_append, List.mem_flatMap, List.mem_cons, List.mem_map]
    grind

theorem Heading.namesIn_lexemes
    {h : Heading} (hmodule : Alphanumeric module.toList) (hlegible : h.Legible) :
    NamesIn module (h.lexemes module) (h.name.name :: h.parameterList.map Prod.fst ++
      h.used module) := by
  have hresult : NamesIn module
      (h.result.elim [.word "void"] TypeExpression.front ++
        h.result.elim [] (TypeExpression.back module))
      (h.result.elim [] (TypeExpression.used module)) := by
    cases htype : h.result with
    | none => exact NamesIn.of_plain (by simp [wordsIn])
    | some type => exact TypeExpression.namesIn_around hmodule (hlegible.result htype)
  have hparameters := namesIn_parameters hmodule fun p hp => (hlegible.parameter hp).2
  intro word
  have hname := NamesIn.own hmodule h.name.name word
  have hresult := hresult word
  have hparameters := hparameters word
  simp only [lexemes, used, wordsIn_append, List.mem_append, wordsIn, List.map_cons, List.mem_cons,
    List.map_append, List.cons_append] at hname hresult hparameters ⊢
  grind

theorem Literal.namesIn_target {l : Literal} (h : l.word.Legible) :
    NamesIn module [l.target] [] := by
  obtain hnumeral | hquoted := l.isNumeral_or_isQuoted h
  · rw [target, if_pos hnumeral.isWord]
    exact NamesIn.of_plain (by simpa [wordsIn] using hnumeral.plain)
  · rw [target, if_neg hquoted.not_isWord]
    exact NamesIn.of_plain (by simp [wordsIn])

theorem namesIn_declaration {names : List String} (h : NamesIn module lexemes names) :
    NamesIn module (.word "extern" :: lexemes ++ [.other ";"]) names := by
  have hkeyword : NamesIn module [.word "extern"] [] := NamesIn.of_plain (by simp [wordsIn])
  have hsemicolon : NamesIn module [.other ";"] [] := NamesIn.of_plain (by simp [wordsIn])
  exact (hkeyword.append (h.append hsemicolon)).congr fun name => by simp

theorem Item.namesIn_line
    {item : Item}
    (hmodule : Alphanumeric module.toList)
    (h : LegiblePhrase item.words item.members) :
    NamesIn module (item.line module) (item.declared ++ item.used module) := by
  cases item with
  | constant c =>
    have hliteral : NamesIn module [c.value.literal.target] [] :=
      Literal.namesIn_target
        (h.words _ (by simp [words, Constant.spelling, ConstantValue.spelling]))
    have hvalue : NamesIn module c.value.lexemes [] := by
      unfold ConstantValue.lexemes
      split
      · have hclosing : NamesIn module [.closing .round] [] := NamesIn.of_plain (by simp [wordsIn])
        exact hliteral.append hclosing
      · exact hliteral
    have hdefine : NamesIn module [.other "#", .word "define"] [] :=
      NamesIn.of_plain (by simp [wordsIn])
    exact hdefine.append ((NamesIn.own hmodule c.name.name).append hvalue)
  | «variable» name type =>
    have htype : LegiblePhrase type.spelling type.members :=
      h.mono (by simp [words]) (by simp [members])
    exact namesIn_declaration (TypeExpression.namesIn_lexemes hmodule htype name.name)
  | procedure heading body => exact namesIn_declaration (Heading.namesIn_lexemes hmodule h)

theorem Item.usedBy_line (item : Item) :
    usedBy (item.line module) = wordsIn (item.line module) := by
  unfold usedBy
  rw [if_neg]
  cases item <;> simp [line]

/-! ### The frame -/

/-- The lines of the frame use only names of the module that they declare. -/
theorem used_subset_of_frame
    {line : List Lexeme} (hline : line ∈ headLines module ++ tailLines module) :
    (usedBy line).filter (OfModule module ·) ⊆ declaredBy line := by
  have hincludes : ∀ header ∈ standardHeaders,
        ∀ word ∈ usedBy (Lexeme.lex ("#include <" ++ header ++ ">").toList),
      '_' ∉ word.toList := by decide +kernel
  have hshift : ∀ word ∈ wordsIn (Lexeme.lex shiftText.toList), '_' ∉ word.toList := by
    decide +kernel
  have hplain : ∀ word ∈ usedBy line, word ∈ declaredBy line ∨ '_' ∉ word.toList := by
    simp only [headLines, tailLines, List.mem_append, List.mem_cons, List.mem_map, List.not_mem_nil,
      or_false] at hline
    obtain (((rfl | rfl | rfl) | ⟨header, hheader,
        rfl⟩) | rfl | rfl) | rfl | rfl | rfl | rfl | rfl :=
      hline
    · simp [usedBy]
    · simp [usedBy, wordsIn, declaredBy]
    · simp [usedBy, wordsIn]
    · exact fun word hword => Or.inr (hincludes header hheader word hword)
    · generalize Lexeme.lex shiftText.toList = body at hshift ⊢
      simp only [usedBy, wordsIn, declaredBy, List.cons_append, List.nil_append]
      simpa using fun word hword => Or.inr (hshift word hword)
    · simp [usedBy, wordsIn]
    · simp [usedBy, wordsIn]
    · simp [usedBy, wordsIn, declaredBy, namesBehindTypes]
    · simp [usedBy, wordsIn]
    · simp [usedBy, wordsIn]
    · simp [usedBy, wordsIn]
  intro word hword
  obtain ⟨hword, hmodule⟩ := List.mem_filter.1 hword
  exact (hplain word hword).resolve_right
    (not_not_intro (underscore_mem_of_ofModule (of_decide_eq_true hmodule)))

/-- The head declares the include guard and the shift macro. -/
theorem declared_headLines (module : String) :
    (headLines module).flatMap (fun line => (declaredBy line).take 1) =
      ["H", "ASH"].map (mangle module) := by
  have hincludes : ∀ header ∈ standardHeaders,
      declaredBy (Lexeme.lex ("#include <" ++ header ++ ">").toList) = [] := by
    decide +kernel
  rw [headLines, List.flatMap_append, List.flatMap_append,
    flatMap_includes_eq_nil fun header hheader => by rw [hincludes header hheader, List.take_nil]]
  simp [declaredBy]

theorem Module.selfContained_iff {m : Module} (hmodule : Alphanumeric m.name.toList)
    (hitems : ∀ item ∈ m.items, LegiblePhrase item.words item.members) :
    SelfContained m.name m.interface ↔ m.InterfaceClosed := by
  have hhead : ∀ known, DeclaredBeforeUse declaredBy
        (fun line => (usedBy line).filter (OfModule m.name ·)) known
      (headLines m.name) := fun known =>
    .of_subset fun line hline => used_subset_of_frame (List.mem_append_left _ hline)
  have htail : ∀ known, DeclaredBeforeUse declaredBy
        (fun line => (usedBy line).filter (OfModule m.name ·)) known
      (tailLines m.name) := fun known =>
    .of_subset fun line hline => used_subset_of_frame (List.mem_append_right _ hline)
  rw [SelfContained, lines_interface hmodule hitems, DeclaredBeforeUse.append_iff,
    DeclaredBeforeUse.append_iff,
    List.nil_append, declared_headLines,
    DeclaredBeforeUse.map_iff (mangle_injective m.name) (fun item _ => item.declaredBy_line)]
  · exact ⟨fun h => h.1.2, fun h => ⟨⟨hhead _, h⟩, htail _⟩⟩
  · intro item hitem name
    rw [List.mem_filter, Item.usedBy_line, decide_eq_true_iff]
    exact item.namesIn_line hmodule (hitems item (List.mem_of_mem_filter hitem)) name

/-! ### Compiled modules -/

theorem VariableGroup.item_subset {g : VariableGroup} {item : Item} (h : item ∈ g.items) :
    item.words ⊆ g.spelling ∧ item.members ⊆ g.type.members := by
  obtain ⟨v, hv, rfl⟩ := List.mem_map.1 h
  have hname : v.spelling ⊆ g.spelling := by
    intro word hword
    obtain rfl | hv := List.mem_cons.1 hv
    · simp [spelling, hword]
    · have hbehind : word ∈ behindSign .comma Marked.spelling g.others :=
        List.mem_flatMap.2 ⟨v, hv, List.mem_cons_of_mem _ hword⟩
      simp [spelling, hbehind]
  have htype : g.type.spelling ⊆ g.spelling := fun word hword => by simp [spelling, hword]
  exact ⟨List.append_subset.2 ⟨hname, htype⟩, List.Subset.refl _⟩

/-- Each name of a legible group is legible, and so is the type. -/
theorem VariableGroup.legible_name
    {g : VariableGroup}
    {v : Marked}
    (h : LegiblePhrase g.spelling g.type.members)
    (hv : v ∈ g.names) :
    Alphanumeric v.name.toList ∧ LegiblePhrase g.type.spelling g.type.members := by
  obtain ⟨hwords, hmembers⟩ :=
    g.item_subset (List.mem_map_of_mem (f := fun v => Item.variable v g.type) hv)
  have hitem : LegiblePhrase (Item.variable v g.type).words (Item.variable v g.type).members :=
    h.mono hwords hmembers
  exact ⟨Item.alphanumeric_name hitem, hitem.mono (by simp [Item.words]) (List.Subset.refl _)⟩

/-- The words and the members of an item stand in the section that declares it. -/
theorem Section.item_subset {s : Section} {item : Item} (h : item ∈ s.items module) :
    item.words ⊆ s.spelling ∧ item.members ⊆ s.types.flatMap TypeExpression.members := by
  cases s with
  | constants list =>
    obtain ⟨c, hc, rfl⟩ := List.mem_map.1 h
    exact ⟨fun word hword => List.mem_cons_of_mem _ (List.mem_flatMap.2 ⟨c, hc, hword⟩),
      List.nil_subset _⟩
  | variableGroups groups =>
    obtain ⟨g, hg, hitem⟩ := List.mem_flatMap.1 h
    obtain ⟨hwords, hmembers⟩ := g.item_subset hitem
    refine ⟨fun word hword => List.mem_cons_of_mem _ (List.mem_flatMap.2 ⟨g, hg, hwords hword⟩),
      fun q hq => ?_⟩
    exact List.mem_flatMap.2 ⟨g.type, List.mem_map_of_mem hg, hmembers hq⟩
  | procedure p =>
    obtain rfl := List.mem_singleton.1 h
    refine ⟨fun word hword => ?_, fun q hq => ?_⟩
    · have hheading : word ∈ p.heading.name.spelling ++ p.heading.rest := hword
      refine List.mem_cons_of_mem _ ?_
      simp only [Procedure.spelling, List.append_assoc] at hheading ⊢
      grind
    · obtain ⟨type, htype, hq⟩ := List.mem_flatMap.1 hq
      exact List.mem_flatMap.2 ⟨type, List.mem_append_left _ htype, hq⟩

theorem Import.mem_spelling_of_mem_modules
    {i : Import} {called real : String} (h : (called, real) ∈ i.modules) :
    Word.identifier real ∈ i.spelling := by
  cases i with
  | empty => cases h
  | module name =>
    obtain ⟨rfl, rfl⟩ : called = name ∧ real = name := by simpa [modules] using h
    exact List.mem_cons_self
  | renamed name target =>
    obtain ⟨rfl, rfl⟩ | ⟨rfl, rfl⟩ : called = target ∧ real = target ∨ called = name ∧
        real = target := by
      simpa [modules] using h
    all_goals simp [spelling]

namespace Module

variable {m : Module} {source : String}

/-- The words of a source are those of tokens that are read from it. -/
theorem SpelledBy.exists_next (h : m.SpelledBy source) {word : Word} (hword : word ∈ m.spelling) :
    ∃ (t : Token) (cursor next : Cursor), t.word = word ∧ cursor.next .reserved = .ok t next := by
  obtain ⟨tokens, htokens, hwords⟩ := h.tokens
  rw [← hwords] at hword
  obtain ⟨t, ht, rfl⟩ := List.mem_map.1 hword
  obtain ⟨k, hk⟩ := List.getElem?_of_mem ht
  have hanswer := Cursor.answer_of_tokens htokens hk
  unfold Cursor.answer at hanswer
  split at hanswer
  · rename_i hnext
    cases hanswer
    exact ⟨_, _, _, rfl, hnext⟩
  · cases hanswer

/-- The words of a source are legible. -/
theorem SpelledBy.legible (h : m.SpelledBy source) : ∀ word ∈ m.spelling, word.Legible := by
  intro word hword
  obtain ⟨t, _, _, rfl, hnext⟩ := h.exists_next hword
  exact (Cursor.legible_next hnext).word

theorem SpelledBy.alphanumeric_name (h : m.SpelledBy source) : Alphanumeric m.name.toList :=
  (h.legible (.identifier m.name) (by simp [spelling])).2

theorem SpelledBy.alphanumeric_module
    (h : m.SpelledBy source)
    {called real : String}
    (hmodule : (called, real) ∈ m.modules) :
    Alphanumeric real.toList := by
  obtain heq | hmodule := List.mem_cons.1 hmodule
  · cases heq
    exact h.alphanumeric_name
  · obtain ⟨i, hi, hmodule⟩ := List.mem_flatMap.1 hmodule
    obtain ⟨list, hlist, hi⟩ := List.mem_flatMap.1 hi
    have hreal := Import.mem_spelling_of_mem_modules hmodule
    have hspelling : Word.identifier real ∈ list.spelling := by
      obtain rfl | hi := List.mem_cons.1 hi
      · simp [ImportList.spelling, hreal]
      · have hbehind : Word.identifier real ∈ behindSign .comma Import.spelling list.others :=
          List.mem_flatMap.2 ⟨i, hi, List.mem_cons_of_mem _ hreal⟩
        simp [ImportList.spelling, hbehind]
    have himports : Word.identifier real ∈ m.imports.flatMap ImportList.spelling :=
      List.mem_flatMap.2 ⟨list, hlist, hspelling⟩
    exact (h.legible (.identifier real) (by simp [spelling, himports])).2

/--
The words of a section are legible, and so are the modules of the members that its types name.
-/
theorem SpelledBy.legible_section (h : m.SpelledBy source) {s : Section} (hs : s ∈ m.sections) :
    LegiblePhrase s.spelling (s.types.flatMap TypeExpression.members) := by
  constructor
  · intro word hword
    have hsections : word ∈ m.sections.flatMap Section.spelling := List.mem_flatMap.2 ⟨s, hs, hword⟩
    exact h.legible word (by simp [spelling, hsections])
  · intro q hq
    obtain ⟨type, htype, hq⟩ := List.mem_flatMap.1 hq
    have htypes : type ∈ m.types := List.mem_flatMap.2 ⟨s, hs, htype⟩
    exact h.alphanumeric_module
      (h.modules q.named (List.mem_map_of_mem (List.mem_flatMap.2 ⟨type, htypes, hq⟩)))

theorem SpelledBy.legible_item (h : m.SpelledBy source) {item : Item} (hitem : item ∈ m.items) :
    LegiblePhrase item.words item.members := by
  obtain ⟨s, hs, hitem⟩ := List.mem_flatMap.1 hitem
  obtain ⟨hwords, hmembers⟩ := s.item_subset hitem
  exact (h.legible_section hs).mono hwords hmembers

end Module

end Grammar

open Grammar in
/--
The interface of a compiled module is self-contained exactly if the module is closed: its exported
items use, in their types, only names of the module that are exported in front of them, or that are
the item itself or one of its parameters.
-/
theorem selfContained_interface_iff
    {name source header : String}
    {limits : Limits}
    {units : Units}
    (h : compile name source header limits = .ok units) :
    ∃ m : Module,
      m.SpelledBy source ∧
      units.interface = m.interface ∧
      (Target.SelfContained m.name units.interface ↔ m.InterfaceClosed) := by
  obtain ⟨m, start, final, hspelled, -, -, rfl, -⟩ := Compilation.exists_compiled h
  exact ⟨m, hspelled, rfl, Module.selfContained_iff hspelled.alphanumeric_name
    fun item hitem => hspelled.legible_item hitem⟩

open Grammar in
/-- An exported array whose size is a constant that is not exported. -/
theorem not_selfContained_of_privateSize :
    ∃ (units : Units) (m : Module),
      compile "M.Mod" "MODULE M;CONST n=3;VAR a*:ARRAY n OF CHAR;END M." "M.h" {} = .ok units ∧
      m.SpelledBy "MODULE M;CONST n=3;VAR a*:ARRAY n OF CHAR;END M." ∧
      (Target.SelfContained m.name units.interface ↔ m.InterfaceClosed) ∧
      ¬ Target.SelfContained "M" units.interface := by
  have hchecked :
      (compile "M.Mod" "MODULE M;CONST n=3;VAR a*:ARRAY n OF CHAR;END M." "M.h" {}).toOption.map
        (fun units => decide (Target.SelfContained "M" units.interface)) = some false := by
    decide +kernel
  obtain ⟨units, hunits, hnot⟩ := Option.map_eq_some_iff.1 hchecked
  rw [toOption_eq_some_iff] at hunits
  obtain ⟨m, hspelled, -, hiff⟩ := selfContained_interface_iff hunits
  exact ⟨units, m, hunits, hspelled, hiff, of_decide_eq_false hnot⟩

end Oberon
