import Oberon.Proofs.Grammar.Declaration
import Oberon.Proofs.Target.Header
import Oberon.Proofs.Target.Legible

/-!
# The lines of an interface

The lexemes of the lines that an interface consists of: those of its head and its tail, and one line
for each exported item.

    constant   := # define name value
    variable   := extern declarator ;
    procedure  := extern front name ( parameters ) back ;
    parameters := void | declarator {, declarator}
    declarator := front name back

The front of a type stands in front of a name, and its back behind the name.

**Main result.**
* `Module.lines_interface`: if the words of its items are legible, the interface of a module has
  these lines.
-/

namespace Oberon
namespace Grammar

open Target
open Target.Lexeme (linesFrom Breaks IsWord)

/-! ### Lexemes -/

namespace ElementType

/-- The lexemes in front of a name of the type. -/
def front : ElementType → List Lexeme
  | pointer none => [.word "void", .binary .times]
  | pointer (some base) => [.word base.text, .binary .times]
  | procedure => [.word "void", .opening .round, .binary .times]
  | basic type => [.word type.text]

/-- The lexemes behind a name of the type. -/
def back : ElementType → List Lexeme
  | procedure => [.closing .round, .opening .round, .closing .round]
  | _ => []

end ElementType

namespace TypeExpression

def front : TypeExpression → List Lexeme
  | array _ elements => elements.front
  | plain type => type.front

def back (module : String) : TypeExpression → List Lexeme
  | array size elements =>
    .opening .square :: .word (size.text module) :: .closing .square :: elements.back
  | plain type => type.back

/-- The lexemes of the declarator of a name. -/
def lexemes (type : TypeExpression) (module name : String) : List Lexeme :=
  type.front ++ .word (mangle module name) :: type.back module

end TypeExpression

/-- Each parameter of a procedure with its type. -/
def Heading.parameterList (h : Heading) : List (String × TypeExpression) :=
  (h.parameters.getD []).flatMap fun group => group.names.map fun name => (name, group.type)

/-- The lexemes of parameters. -/
def parameterLexemes (module : String) (parameters : List (String × TypeExpression)) :
    List Lexeme :=
  if parameters = [] then [.word "void"]
  else [Lexeme.comma].intercalate (parameters.map fun p => p.2.lexemes module p.1)

def Heading.lexemes (module : String) (h : Heading) : List Lexeme :=
  h.result.elim [.word "void"] TypeExpression.front ++ .word (mangle module h.name.name) ::
    .opening .round :: parameterLexemes module h.parameterList ++
    .closing .round :: h.result.elim [] (TypeExpression.back module)

/-- A literal is a word or quoted. -/
def Literal.target (l : Literal) : Lexeme :=
  if IsWord l.lexeme.toList then .word l.lexeme else .quoted l.lexeme

def ConstantValue.lexemes (v : ConstantValue) : List Lexeme :=
  if v.negated then [.opening .round, .binary .minus, v.literal.target, .closing .round]
    else [v.literal.target]

/-- The lexemes of the line of an exported item. -/
def Item.line (module : String) : Item → List Lexeme
  | constant c =>
    .other "#" :: .word "define" :: .word (mangle module c.name.name) :: c.value.lexemes
  | .variable name type => .word "extern" :: type.lexemes module name.name ++ [.other ";"]
  | procedure heading _ => .word "extern" :: heading.lexemes module ++ [.other ";"]

/-! ### Reading the lines -/

/-- Words that can stand in a C text, with members of modules that can. -/
structure LegiblePhrase (words : List Word) (members : List Qualified) : Prop where
  words : ∀ word ∈ words, word.Legible
  modules : ∀ q ∈ members, Alphanumeric q.module.toList

theorem LegiblePhrase.mono
    {words others : List Word}
    {members further : List Qualified}
    (h : LegiblePhrase words members)
    (hwords : others ⊆ words)
    (hmembers : further ⊆ members) :
    LegiblePhrase others further :=
  ⟨fun word hword => h.words word (hwords hword), fun q hq => h.modules q (hmembers hq)⟩

theorem isWord_of_alphanumeric
    {text : List Char} (hne : text ≠ []) (h : Alphanumeric text) :
    IsWord text :=
  Lexeme.isWord_of_forall_isNameChar hne fun c hc => by simp [Lexeme.isNameChar, h c hc]

theorem isWord_mangle
    {module name : String}
    (hmodule : Alphanumeric module.toList)
    (hname : Alphanumeric name.toList) :
    IsWord (mangle module name).toList :=
  (isWord_underscore hmodule hname).1

theorem Qualified.isWord_text {q : Qualified} (h : LegiblePhrase q.spelling [q]) :
    IsWord q.text.toList := by
  have hname := h.words (.identifier q.name) (by simp [Qualified.spelling])
  exact isWord_mangle (h.modules q (by simp)) hname.2

theorem isWord_builtinType {word : Keyword} {text : String} (h : builtinType? word = some text) :
    IsWord text.toList ∧ '_' ∉ text.toList := by
  unfold builtinType? at h
  split at h <;> cases h <;> decide

theorem BasicType.isWord_text {b : BasicType} (h : LegiblePhrase b.spelling b.members) :
    IsWord b.text.toList := by
  cases b with
  | builtin word => exact (isWord_builtinType (Option.eq_some_of_isSome word.2)).1
  | undeclared name =>
    have hname := h.words (.identifier name) (by simp [spelling])
    exact isWord_of_alphanumeric hname.1 hname.2
  | member q => exact q.isWord_text h

variable {line : List Lexeme} {rest : List Char} {module : String}

theorem linesFrom_text
    {text : String} (h : IsWord text.toList) (hrest : Breaks rest) :
    linesFrom line .nothing (text.toList ++ rest) =
      linesFrom (line ++ [.word text]) .nothing rest := by
  rw [Lexeme.linesFrom_word h hrest, String.ofList_toList]

namespace ElementType

variable {e : ElementType}

theorem linesFrom_left (h : LegiblePhrase e.spelling e.members) :
    linesFrom line .nothing (e.left.toList ++ (" ".toList ++ rest)) =
      linesFrom (line ++ e.front) .nothing rest := by
  cases e with
  | pointer base =>
    cases base with
    | none =>
      have htext : "void *".toList ++ (" ".toList ++ rest) = "void * ".toList ++ rest := by simp
      rw [left, htext, Lexeme.linesFrom_append [.word "void", .binary .times] (by decide) rfl,
        front]
    | some base =>
      have hword : IsWord base.text.toList :=
        base.isWord_text (h.mono (by simp [spelling]) (by simp [members]))
      have htext : (base.text ++ " *").toList ++ (" ".toList ++ rest) =
          base.text.toList ++ (" * ".toList ++ rest) := by
        simp
      rw [left, htext, linesFrom_text hword (Lexeme.breaks_append rest (by decide)),
        Lexeme.linesFrom_append [.binary .times] (by decide) rfl, List.append_assoc, front,
          List.singleton_append]
  | procedure =>
    have htext : "void (*".toList ++ (" ".toList ++ rest) = "void (* ".toList ++ rest := by simp
    rw [left, htext, Lexeme.linesFrom_append [.word "void", .opening .round,
      .binary .times] (by decide) rfl, front]
  | basic type =>
    rw [left, linesFrom_text (type.isWord_text h) (Lexeme.breaks_append rest (by decide)),
      Lexeme.linesFrom_append [] (by decide) rfl, List.append_nil, front]

theorem linesFrom_right :
    linesFrom line .nothing (e.right.toList ++ rest) =
      linesFrom (line ++ e.back) .nothing rest := by
  cases e with
  | procedure =>
    exact Lexeme.linesFrom_append [.closing .round, .opening .round,
      .closing .round] (by decide) rfl
  | pointer base => simp [right, back]
  | basic type => simp [right, back]

theorem breaks_right (hrest : Breaks rest) : Breaks (e.right.toList ++ rest) := by
  cases e with
  | procedure => exact Lexeme.breaks_append rest (by decide)
  | pointer base => simpa [right] using hrest
  | basic type => simpa [right] using hrest

end ElementType

theorem ArraySize.isWord_text {size : ArraySize} (hmodule : Alphanumeric module.toList)
    (h : LegiblePhrase size.spelling size.members) : IsWord (size.text module).toList := by
  cases size with
  | literal lexeme =>
    have hnumeral : IsNumeral lexeme.toList :=
      h.words (.number .integer, lexeme) (by simp [spelling])
    exact hnumeral.isWord
  | constant name =>
    have hname := h.words (.identifier name) (by simp [spelling])
    exact isWord_mangle hmodule hname.2
  | member q => exact q.isWord_text h

namespace TypeExpression

variable {type : TypeExpression}

theorem legiblePhrase_size {size : ArraySize} {elements : ElementType}
    (h : LegiblePhrase (array size elements).spelling (array size elements).members) :
    LegiblePhrase size.spelling size.members :=
  h.mono (by simp [spelling]) (by simp [members])

theorem legiblePhrase_elements {size : ArraySize} {elements : ElementType}
    (h : LegiblePhrase (array size elements).spelling (array size elements).members) :
    LegiblePhrase elements.spelling elements.members :=
  h.mono (by intro word hword; simp [spelling, hword]) (by simp [members])

theorem linesFrom_left (h : LegiblePhrase type.spelling type.members) :
    linesFrom line .nothing (type.left.toList ++ (" ".toList ++ rest)) =
      linesFrom (line ++ type.front) .nothing rest := by
  cases type with
  | array size elements => exact elements.linesFrom_left (legiblePhrase_elements h)
  | plain type => exact type.linesFrom_left h

theorem linesFrom_right
    (hmodule : Alphanumeric module.toList)
    (h : LegiblePhrase type.spelling type.members) :
    linesFrom line .nothing ((type.right module).toList ++ rest) =
      linesFrom (line ++ type.back module) .nothing rest := by
  cases type with
  | array size elements =>
    have hsize := size.isWord_text hmodule (legiblePhrase_size h)
    simp only [right, String.toList_append, List.append_assoc]
    rw [Lexeme.linesFrom_append [.opening .square] (by decide) rfl,
      linesFrom_text hsize (Lexeme.breaks_append _ (by decide)),
      Lexeme.linesFrom_append [.closing .square] (by decide) rfl, ElementType.linesFrom_right]
    simp [back]
  | plain type => exact type.linesFrom_right

theorem breaks_right (hrest : Breaks rest) : Breaks ((type.right module).toList ++ rest) := by
  cases type with
  | array size elements =>
    simp only [right, String.toList_append, List.append_assoc]
    exact Lexeme.breaks_append _ (by decide)
  | plain type => exact type.breaks_right hrest

theorem linesFrom_declarator
    {name : String}
    (hmodule : Alphanumeric module.toList)
    (hname : Alphanumeric name.toList)
    (h : LegiblePhrase type.spelling type.members)
    (hrest : Breaks rest) :
    linesFrom line .nothing ((type.declarator module name).toList ++ rest) =
      linesFrom (line ++ type.lexemes module name) .nothing rest := by
  simp only [declarator, declaration, String.toList_append, List.append_assoc]
  rw [linesFrom_left h, linesFrom_text (isWord_mangle hmodule hname) (breaks_right hrest),
    linesFrom_right hmodule h]
  simp [lexemes]

end TypeExpression

namespace Heading

/-- The words of a heading, and the members that its types name. -/
def Legible (h : Heading) : Prop :=
  LegiblePhrase (h.name.spelling ++ h.rest) (h.types.flatMap TypeExpression.members)

variable {h : Heading}

theorem group_subset {g : ParameterGroup} (hg : g ∈ h.parameters.getD []) :
    g.spelling ⊆ h.rest := by
  intro word hword
  refine List.mem_append_left _ (List.mem_append_left _ ?_)
  cases hparameters : h.parameters with
  | none => simp [hparameters] at hg
  | some groups =>
    rw [hparameters, Option.getD_some] at hg
    cases groups with
    | nil => cases hg
    | cons first others =>
      obtain rfl | hg := List.mem_cons.1 hg
      · simp [parametersSpelling, hword]
      · have hbehind : word ∈ behindSign .semicolon ParameterGroup.spelling others :=
          List.mem_flatMap.2 ⟨g, hg, List.mem_cons_of_mem _ hword⟩
        simp [parametersSpelling, hbehind]

theorem identifier_mem_rest {p : String × TypeExpression} (hp : p ∈ h.parameterList) :
    Word.identifier p.1 ∈ h.rest := by
  obtain ⟨g, hg, hp⟩ := List.mem_flatMap.1 hp
  obtain ⟨name, hname, rfl⟩ := List.mem_map.1 hp
  refine group_subset hg ?_
  obtain rfl | hname := List.mem_cons.1 hname
  · exact List.mem_cons_self
  · exact List.mem_cons_of_mem _
      (List.mem_append_left _ (List.mem_flatMap.2 ⟨name, hname, by simp⟩))

theorem Legible.parameter
    (hlegible : h.Legible) {p : String × TypeExpression} (hp : p ∈ h.parameterList) :
    Alphanumeric p.1.toList ∧ LegiblePhrase p.2.spelling p.2.members := by
  have hname := hlegible.words _ (List.mem_append_right _ (identifier_mem_rest hp))
  obtain ⟨g, hg, hp⟩ := List.mem_flatMap.1 hp
  obtain ⟨name, -, rfl⟩ := List.mem_map.1 hp
  refine ⟨hname.2, fun word hword => ?_, fun q hq => hlegible.modules q ?_⟩
  · exact hlegible.words word
      (List.mem_append_right _ (group_subset hg (by simp [ParameterGroup.spelling, hword])))
  · exact List.mem_flatMap.2 ⟨g.type, List.mem_append_left _ (List.mem_map_of_mem hg), hq⟩

theorem Legible.result
    (hlegible : h.Legible) {type : TypeExpression} (htype : h.result = some type) :
    LegiblePhrase type.spelling type.members :=
  LegiblePhrase.mono hlegible (fun word hword => by simp [rest, resultSpelling, htype, hword])
    fun q hq => List.mem_flatMap.2 ⟨type, by simp [types, htype], hq⟩

theorem Legible.name (hlegible : h.Legible) : Alphanumeric h.name.name.toList :=
  (hlegible.words (.identifier h.name.name) (by simp [Marked.spelling])).2

theorem parametersText_eq :
    h.parametersText module =
      if h.parameterList = [] then "void"
        else ", ".intercalate (h.parameterList.map fun p => p.2.declarator module p.1) := by
  have hdeclarators : (h.parameters.getD []).flatMap (ParameterGroup.declarators module) =
      h.parameterList.map fun p => p.2.declarator module p.1 := by
    rw [parameterList, List.map_flatMap]
    simp only [List.map_map]
    rfl
  simp [parametersText, hdeclarators]

theorem linesFrom_parameters
    {parameters : List (String × TypeExpression)}
    (hmodule : Alphanumeric module.toList)
    (hlegible : ∀ p ∈ parameters, Alphanumeric p.1.toList ∧ LegiblePhrase p.2.spelling p.2.members)
    (hrest : Breaks rest) :
    linesFrom line .nothing
      ((", ".intercalate (parameters.map fun p => p.2.declarator module p.1)).toList ++ rest) =
      linesFrom (line ++ [Lexeme.comma].intercalate (parameters.map
        fun p => p.2.lexemes module p.1)) .nothing rest := by
  induction parameters generalizing line with
  | nil => simp
  | cons first others ih =>
    obtain ⟨hname, htype⟩ := hlegible first List.mem_cons_self
    cases others with
    | nil =>
      simp only [List.map_cons, List.map_nil, String.intercalate_singleton,
        List.intercalate_singleton]
      exact TypeExpression.linesFrom_declarator hmodule hname htype hrest
    | cons second others =>
      simp only [List.map_cons, String.intercalate_cons_cons, List.intercalate_cons_cons,
        String.toList_append, List.append_assoc] at ih ⊢
      rw [TypeExpression.linesFrom_declarator hmodule hname htype
        (Lexeme.breaks_append _ (by decide)),
        Lexeme.linesFrom_append [.comma] (by decide) rfl, ih fun p hp =>
          hlegible p (List.mem_cons_of_mem _ hp)]
      simp only [List.append_assoc]

theorem linesFrom_signature (hmodule : Alphanumeric module.toList) (hlegible : h.Legible) :
    linesFrom line .nothing ((h.signature module).toList ++ rest) =
      linesFrom (line ++ h.lexemes module) .nothing rest := by
  have hfront : ∀ line rest,
      linesFrom line .nothing ((h.result.elim "void" TypeExpression.left).toList ++
        (" ".toList ++ rest)) =
      linesFrom (line ++ h.result.elim [.word "void"] TypeExpression.front) .nothing rest := by
    intro line rest
    cases hresult : h.result with
    | none =>
      have htext : "void".toList ++ (" ".toList ++ rest) = "void ".toList ++ rest := by simp
      rw [Option.elim_none, htext, Lexeme.linesFrom_append [.word "void"] (by decide) rfl,
        Option.elim_none]
    | some type => exact TypeExpression.linesFrom_left (hlegible.result hresult)
  have hback : ∀ line rest,
        linesFrom line .nothing ((h.result.elim "" (TypeExpression.right module)).toList ++ rest) =
      linesFrom (line ++ h.result.elim [] (TypeExpression.back module)) .nothing rest := by
    intro line rest
    cases hresult : h.result with
    | none => simp
    | some type => exact TypeExpression.linesFrom_right hmodule (hlegible.result hresult)
  have hparameters : ∀ line rest, Breaks rest →
        linesFrom line .nothing ((h.parametersText module).toList ++ rest) =
      linesFrom (line ++ parameterLexemes module h.parameterList) .nothing rest := by
    intro line rest hbreaks
    rw [parametersText_eq, parameterLexemes]
    split
    · exact linesFrom_text (by decide) hbreaks
    · exact linesFrom_parameters hmodule (fun p hp => hlegible.parameter hp) hbreaks
  simp only [signature, String.toList_append, List.append_assoc]
  rw [hfront, linesFrom_text (isWord_mangle hmodule hlegible.name)
    (Lexeme.breaks_append _ (by decide)),
    Lexeme.linesFrom_append [.opening .round] (by decide) rfl,
      hparameters _ _ (Lexeme.breaks_append _ (by decide)),
    Lexeme.linesFrom_append [.closing .round] (by decide) rfl, hback]
  simp [lexemes]

end Heading

theorem Literal.isNumeral_or_isQuoted {l : Literal} (h : l.word.Legible) :
    IsNumeral l.lexeme.toList ∨ IsQuoted l.lexeme.toList := by
  obtain ⟨kind, lexeme⟩ := l
  cases kind with
  | number numeral => exact Or.inl h
  | char => exact h
  | string => exact Or.inr h

theorem Literal.linesFrom_lexeme
    {l : Literal} (h : l.word.Legible) (hrest : Breaks rest) :
    linesFrom line .nothing (l.lexeme.toList ++ rest) =
      linesFrom (line ++ [l.target]) .nothing rest := by
  obtain hnumeral | hquoted := l.isNumeral_or_isQuoted h
  · rw [linesFrom_text hnumeral.isWord hrest, target, if_pos hnumeral.isWord]
  · rw [target, if_neg hquoted.not_isWord]
    obtain ⟨mark, more, hmark, hmore, htext⟩ := hquoted
    rw [htext, Lexeme.linesFrom_quoted hmark hmore, ← htext, String.ofList_toList]

theorem ConstantValue.linesFrom_text
    {v : ConstantValue} (h : v.literal.word.Legible) (hrest : Breaks rest) :
    linesFrom line .nothing (v.text.toList ++ rest) =
      linesFrom (line ++ v.lexemes) .nothing rest := by
  rw [text, lexemes]
  split
  · rename_i hnegated
    -- The sign stands in front of a digit, so that it is a lexeme by itself.
    have hword : IsWord v.literal.lexeme.toList := by
      obtain ⟨negated, ⟨kind, lexeme⟩, hsigned⟩ := v
      obtain rfl | rfl := hsigned hnegated
      all_goals exact IsNumeral.isWord h
    obtain ⟨c, more, htext, hc, -⟩ := hword
    have hsign : Lexeme.ofSigns? '-' c = none ∧ c ≠ '\n' := by
      have hne : ∀ d, Lexeme.isNameChar d = false → c ≠ d := by
        rintro d hd rfl
        rw [hc] at hd
        cases hd
      simp [Lexeme.ofSigns?, hne '-' rfl, hne '>' rfl, hne '=' rfl, hne '\n' rfl]
    have hminus : linesFrom (line ++ [.opening .round]) (.sign '-')
          (v.literal.lexeme.toList ++ (")".toList ++ rest)) =
        linesFrom (line ++ [.opening .round, .binary .minus]) .nothing
          (v.literal.lexeme.toList ++ (")".toList ++ rest)) := by
      rw [htext, List.cons_append, Lexeme.linesFrom_cons hsign.2, Lexeme.linesFrom_cons hsign.2]
      simp [Lexeme.step, hsign.1, Lexeme.after, Lexeme.ofSign]
    simp only [String.toList_append, List.append_assoc]
    rw [Lexeme.linesFrom_scan (by decide)]
    have hscan : Lexeme.scan .nothing "(-".toList = ([.opening .round], .sign '-') := rfl
    rw [hscan, hminus, Literal.linesFrom_lexeme h (Lexeme.breaks_append _ (by decide)),
      Lexeme.linesFrom_append [.closing .round] (by decide) rfl]
    simp
  · exact Literal.linesFrom_lexeme h hrest

namespace Item

/-- The words of an item in the source, without the body of a procedure. -/
def words : Item → List Word
  | constant c => c.spelling
  | .variable name type => name.spelling ++ type.spelling
  | procedure heading _ => heading.name.spelling ++ heading.rest

def members : Item → List Qualified
  | constant _ => []
  | .variable _ type => type.members
  | procedure heading _ => heading.types.flatMap TypeExpression.members

variable {item : Item}

theorem linesFrom_semicolon :
    linesFrom line .nothing (";\n".toList ++ rest) =
      (line ++ [.other ";"]) :: linesFrom [] .nothing rest := by
  have htext : ";\n".toList ++ rest = ";".toList ++ ("\n".toList ++ rest) := by simp
  rw [htext, Lexeme.linesFrom_line (by decide) rfl]
  rfl

theorem identifier_mem_words (item : Item) : Word.identifier item.name.name ∈ item.words := by
  cases item <;> simp [words, name, Constant.spelling, Marked.spelling]

theorem alphanumeric_name (h : LegiblePhrase item.words item.members) :
    Alphanumeric item.name.name.toList :=
  (h.words _ item.identifier_mem_words).2

/-- The interface has one line for an exported item. -/
theorem linesFrom_interfaceLine
    (hmodule : Alphanumeric module.toList) (h : LegiblePhrase item.words item.members) :
    linesFrom [] .nothing ((item.interfaceLine module).toList ++ rest) =
      item.line module :: linesFrom [] .nothing rest := by
  cases item with
  | constant c =>
    have hname : Alphanumeric c.name.name.toList := alphanumeric_name h
    have hvalue : c.value.literal.word.Legible :=
      h.words _ (by simp [words, Constant.spelling, ConstantValue.spelling])
    simp only [interfaceLine, Constant.line, constantLine, String.toList_append, List.append_assoc]
    rw [Lexeme.linesFrom_append [.other "#", .word "define"] (by decide) rfl,
      linesFrom_text (isWord_mangle hmodule hname) (Lexeme.breaks_append _ (by decide)),
        Lexeme.linesFrom_append [] (by decide) rfl,
      ConstantValue.linesFrom_text hvalue (Lexeme.breaks_append _ (by decide))]
    exact Lexeme.linesFrom_newline
  | «variable» name type =>
    have hname : Alphanumeric name.name.toList := alphanumeric_name h
    have htype : LegiblePhrase type.spelling type.members :=
      h.mono (by simp [words]) (by simp [members])
    simp only [interfaceLine, String.toList_append, List.append_assoc]
    rw [Lexeme.linesFrom_append [.word "extern"] (by decide) rfl,
      TypeExpression.linesFrom_declarator hmodule hname htype (Lexeme.breaks_append _ (by decide)),
        linesFrom_semicolon]
    rfl
  | procedure heading body =>
    simp only [interfaceLine, String.toList_append, List.append_assoc]
    rw [Lexeme.linesFrom_append [.word "extern"] (by decide) rfl,
      Heading.linesFrom_signature hmodule h, linesFrom_semicolon]
    rfl

end Item

/-! ### The frame of an interface -/

/-- The text behind the name of the shift macro. -/
def shiftText : String := "(x, n) ((n) >= 0 ? ((x) << (n)) : ((x) >> -(n)))"

def headLines (module : String) : List (List Lexeme) :=
  [[.other "#", .word "ifndef", .word (mangle module "H")],
    [.other "#", .word "define", .word (mangle module "H")], []] ++
    (standardHeaders.map fun header => Lexeme.lex ("#include <" ++ header ++ ">").toList) ++
    [[.other "#", .word "define", .word (mangle module "ASH")] ++ Lexeme.lex shiftText.toList, []]

def tailLines (module : String) : List (List Lexeme) :=
  [[], [.word "extern", .word "void", .word (initializer module), .opening .round, .closing .round,
    .other ";"], [], [.other "#", .word "endif"], []]

theorem linesFrom_include {header : String} (h : header ∈ standardHeaders) :
    linesFrom [] .nothing (("#include <" ++ header ++ ">\n").toList ++ rest) =
      Lexeme.lex ("#include <" ++ header ++ ">").toList :: linesFrom [] .nothing rest := by
  have hheaders : ∀ header ∈ standardHeaders, '\n' ∉ ("#include <" ++ header ++ ">").toList ∧
      (Lexeme.scan .nothing ("#include <" ++ header ++ ">").toList).2.endsWithLine = true := by
    decide +kernel
  have htext : ("#include <" ++ header ++ ">\n").toList ++ rest =
      ("#include <" ++ header ++ ">").toList ++ ("\n".toList ++ rest) := by simp
  rw [htext, Lexeme.linesFrom_line (hheaders header h).1 (hheaders header h).2, List.nil_append]

theorem flatMap_includes_eq_nil
    {α : Type}
    {f : List Lexeme → List α}
    (h : ∀ header ∈ standardHeaders, f (Lexeme.lex ("#include <" ++ header ++ ">").toList) = []) :
    (standardHeaders.map fun header =>
      Lexeme.lex ("#include <" ++ header ++ ">").toList).flatMap f =
      [] := by
  rw [List.flatMap_eq_nil_iff]
  intro line hline
  obtain ⟨header, hheader, rfl⟩ := List.mem_map.1 hline
  exact h header hheader

theorem linesFrom_interfaceHead (hmodule : Alphanumeric module.toList) :
    linesFrom [] .nothing ((interfaceHead module).toList ++ rest) =
      headLines module ++ linesFrom [] .nothing rest := by
  have htext : interfaceHead module = "#ifndef " ++ mangle module "H" ++ "\n" ++ "#define " ++
        mangle module "H" ++ "\n" ++ "\n" ++
      String.join (standardHeaders.map fun header => "#include <" ++ header ++ ">\n") ++
      "#define " ++ mangle module "ASH" ++ shiftText ++ "\n" ++ "\n" := by
    have hmacro : "(x, n) ((n) >= 0 ? ((x) << (n)) : ((x) >> -(n)))\n\n" =
        shiftText ++ ("\n" ++ "\n") := by
      decide
    have hguard : "_H\n#define " = "_" ++ ("H" ++ ("\n" ++ "#define ")) := by decide
    have hbehind : "_H\n\n" = "_" ++ ("H" ++ ("\n" ++ "\n")) := by decide
    have hshift : "_ASH" = "_" ++ "ASH" := by decide
    rw [interfaceHead, shiftMacro, hmacro, hguard, hbehind, hshift]
    simp only [mangle, String.append_assoc]
  have hguard := isWord_mangle hmodule (show Alphanumeric "H".toList by simp [Alphanumeric])
  have hshift := isWord_mangle hmodule (show Alphanumeric "ASH".toList by simp [Alphanumeric])
  rw [htext]
  simp only [String.toList_append, List.append_assoc]
  rw [Lexeme.linesFrom_append [.other "#", .word "ifndef"] (by decide) rfl,
    linesFrom_text hguard (Lexeme.breaks_append _ (by decide)), Lexeme.linesFrom_newline,
    Lexeme.linesFrom_append [.other "#", .word "define"] (by decide) rfl,
    linesFrom_text hguard (Lexeme.breaks_append _ (by decide)), Lexeme.linesFrom_newline,
      Lexeme.linesFrom_newline,
    Lexeme.linesFrom_join fun header hheader rest => linesFrom_include hheader,
    Lexeme.linesFrom_append [.other "#", .word "define"] (by decide) rfl,
    linesFrom_text hshift (Lexeme.breaks_append _ (by decide)),
    Lexeme.linesFrom_line (by decide +kernel) (by decide +kernel), Lexeme.linesFrom_newline]
  simp only [headLines, List.append_assoc, List.cons_append, List.nil_append]

/-- The name of a module between characters of names. -/
theorem isWord_around
    {front back : String}
    (hmodule : Alphanumeric module.toList)
    (hne : front.toList ≠ [])
    (hfront : ∀ c ∈ front.toList, Lexeme.isNameChar c = true)
    (hback : ∀ c ∈ back.toList, Lexeme.isNameChar c = true) :
    IsWord (front ++ module ++ back).toList := by
  rw [String.toList_append, String.toList_append]
  refine Lexeme.isWord_of_forall_isNameChar (by simp [hne]) ?_
  simp only [List.forall_mem_append]
  exact ⟨⟨hfront, fun c hc => by simp [Lexeme.isNameChar, hmodule c hc]⟩, hback⟩

theorem isWord_initializer (hmodule : Alphanumeric module.toList) :
    IsWord (initializer module).toList :=
  isWord_around hmodule (by simp) (by simp [Lexeme.isNameChar]) (by simp [Lexeme.isNameChar])

theorem isWord_initialized (hmodule : Alphanumeric module.toList) :
    IsWord (initialized module).toList :=
  isWord_around hmodule (by simp) (by simp [Lexeme.isNameChar]) (by simp [Lexeme.isNameChar])

theorem linesFrom_interfaceTail (hmodule : Alphanumeric module.toList) :
    linesFrom [] .nothing (interfaceTail module).toList = tailLines module := by
  have htext : interfaceTail module =
      "\n" ++ "extern void " ++ initializer module ++ "()" ++ ";\n" ++ "\n#endif\n" := by
    have hfront : "\nextern void " = "\n" ++ "extern void " := by decide
    have hback : "();\n\n#endif\n" = "()" ++ (";\n" ++ "\n#endif\n") := by decide
    rw [interfaceTail, hfront, hback]
    simp only [String.append_assoc]
  rw [htext]
  simp only [String.toList_append, List.append_assoc]
  rw [Lexeme.linesFrom_newline, Lexeme.linesFrom_append [.word "extern",
    .word "void"] (by decide) rfl,
    linesFrom_text (isWord_initializer hmodule) (Lexeme.breaks_append _ (by decide)),
    Lexeme.linesFrom_append [.opening .round, .closing .round] (by decide) rfl,
      Item.linesFrom_semicolon]
  rfl

/-- The lines of an interface. -/
theorem Module.lines_interface
    {m : Module}
    (hmodule : Alphanumeric m.name.toList)
    (hitems : ∀ item ∈ m.items, LegiblePhrase item.words item.members) :
    Lexeme.lines m.interface.toList =
      headLines m.name ++ (m.items.filter Item.exported).map (Item.line m.name) ++
        tailLines m.name := by
  have hlines : ∀ item ∈ m.items.filter Item.exported, ∀ rest,
      linesFrom [] .nothing ((item.interfaceLine m.name).toList ++ rest) =
        item.line m.name :: linesFrom [] .nothing rest := fun item hitem rest =>
    Item.linesFrom_interfaceLine hmodule (hitems item (List.mem_of_mem_filter hitem))
  rw [Lexeme.lines, interface, String.toList_append, String.toList_append, List.append_assoc,
    linesFrom_interfaceHead hmodule,
    Lexeme.linesFrom_join hlines, linesFrom_interfaceTail hmodule, List.append_assoc]

end Grammar
end Oberon
