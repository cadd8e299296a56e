import Oberon.Proofs.Target.Brackets
import Oberon.Proofs.Target.Namings

/-!
# What declarations define and declare

The lines that constants, variables and procedures have in the two units of a module, read back as
names that they define for the preprocessor and names that they declare.

    constant    defines its name
    variable    declares its name
    procedure   declares its name and its parameters, and its body the local variables

A type may continue behind the declared name, and the parameters of a procedure stand behind its
name, so what is read is not the last word of a line: it is the last word of each run of words and
asterisks.

**Main results.**
* `Item.namings_line`: what the line of an exported item has.
* `Section.brings_definitions`: what the definitions of a section have in the implementation.
-/

namespace Oberon
namespace Grammar

open Target
open Target.Lexeme (linesFrom)

/-! ### Names of sections and items -/

/-- The names of the parameters and of the local variables. -/
def Procedure.ownNames (p : Procedure) : List String :=
  p.heading.parameterList.map Prod.fst ++ p.localGroups.flatMap fun g => g.names.map Marked.name

namespace Section

def constantList : Section → List Constant
  | constants list => list
  | _ => []

/-- The names of variables and procedures. -/
def linkedNames : Section → List String
  | constants _ => []
  | variableGroups groups => groups.flatMap fun g => g.names.map Marked.name
  | procedure p => [p.heading.name.name]

/-- The names that a procedure declares for itself. -/
def ownNames : Section → List String
  | procedure p => p.ownNames
  | _ => []

/-- What the implementation has of a section: an exported constant is defined in the interface. -/
def namings (s : Section) : List Naming :=
  ((s.constantList.filter fun c => !c.name.exported).map fun c => .defined c.name.name) ++
    (s.linkedNames ++ s.ownNames).map .declared

end Section

/-- What the line of an exported item has. -/
def Item.namings : Item → List Naming
  | constant c => [.defined c.name.name]
  | item => item.declared.map .declared

variable {module name : String} {lexemes : List Lexeme}

/-! ### Declarators -/

/-- Behind the lexemes no type goes on, and no name stands directly behind a type. -/
structure EndsType (lexemes : List Lexeme) : Prop where
  stops : continuesType lexemes = false
  detached : runEnds true lexemes = runEnds false lexemes

theorem ElementType.runEnds_front
    {e : ElementType} (h : continuesType lexemes = false) (behind : Bool) :
    runEnds behind (e.front ++ .word name :: lexemes) = name :: runEnds true lexemes := by
  cases e with
  | pointer base => cases base <;> simp [front, runEnds, h]
  | procedure => simp [front, runEnds, h]
  | basic type => simp [front, runEnds, h]

theorem ElementType.endsType_back {e : ElementType} (h : EndsType lexemes) :
    continuesType (e.back ++ lexemes) = false ∧
    ∀ behind, runEnds behind (e.back ++ lexemes) = runEnds false lexemes := by
  have hplain : ∀ behind, runEnds behind lexemes = runEnds false lexemes := by
    intro behind
    cases behind
    · rfl
    · exact h.detached
  cases e with
  | procedure => exact ⟨rfl, fun _ => rfl⟩
  | pointer base => exact ⟨h.stops, hplain⟩
  | basic type => exact ⟨h.stops, hplain⟩

namespace TypeExpression

variable {type : TypeExpression}

theorem runEnds_front (h : continuesType lexemes = false) (behind : Bool) :
    runEnds behind (type.front ++ .word name :: lexemes) = name :: runEnds true lexemes := by
  cases type <;> exact ElementType.runEnds_front h behind

theorem endsType_back (h : EndsType lexemes) :
    continuesType (type.back module ++ lexemes) = false ∧
      ∀ behind, runEnds behind (type.back module ++ lexemes) = runEnds false lexemes := by
  cases type with
  | array size elements => exact ⟨rfl, fun _ => (elements.endsType_back h).2 false⟩
  | plain type => exact type.endsType_back h

theorem runEnds_lexemes (h : EndsType lexemes) (behind : Bool) :
    runEnds behind (type.lexemes module name ++ lexemes) =
      mangle module name :: runEnds false lexemes := by
  obtain ⟨hstops, hback⟩ := type.endsType_back h
  rw [TypeExpression.lexemes, List.append_assoc, List.cons_append, runEnds_front hstops, hback]

/-- A type begins with a word with which the declaration goes on. -/
theorem exists_front_eq
    (type : TypeExpression) (name : String) (lexemes : List Lexeme) :
    ∃ word rest,
      type.front ++ .word name :: lexemes = .word word :: rest ∧ continuesType rest = true := by
  have hfront : ∀ e : ElementType,
      ∃ word rest, e.front ++ .word name :: lexemes = .word word :: rest ∧
        continuesType rest = true := by
    intro e
    cases e with
    | pointer base => cases base <;> exact ⟨_, _, rfl, rfl⟩
    | procedure => exact ⟨_, _, rfl, rfl⟩
    | basic type => exact ⟨_, _, rfl, rfl⟩
  cases type with
  | array size elements => exact hfront elements
  | plain type => exact hfront type

end TypeExpression

/-- A declaration with a storage class in front, or without. -/
theorem namings_declaration
    {storage : List Lexeme}
    {names : List String}
    (hstorage : storage = [] ∨ ∃ word, storage = [.word word])
    (hopens : ∃ word rest, lexemes = .word word :: rest ∧ continuesType rest = true)
    (hnames : ∀ behind, runEnds behind lexemes = names) :
    namings (storage ++ lexemes) = names.map .declared := by
  obtain ⟨word, rest, rfl, hrest⟩ := hopens
  obtain rfl | ⟨storage, rfl⟩ := hstorage
  · simp [Target.namings, definedBy, declaratorsOf, hrest, hnames]
  · have hbehind := hnames true
    simp only [Target.namings, definedBy, declaratorsOf, continuesType, List.cons_append,
      List.nil_append, List.map_nil, if_true]
    rw [runEnds]
    simp [hbehind]

theorem runEnds_parameters {parameters : List (String × TypeExpression)} (h : EndsType lexemes) :
    runEnds false (parameterLexemes module parameters ++ lexemes) =
      (parameters.map Prod.fst).map (mangle module) ++ runEnds false lexemes := by
  have hlist : ∀ {parameters : List (String × TypeExpression)},
      runEnds false ([Lexeme.comma].intercalate (parameters.map fun p => p.2.lexemes module p.1) ++
        lexemes) =
        (parameters.map Prod.fst).map (mangle module) ++ runEnds false lexemes := by
    intro parameters
    induction parameters with
    | nil => simp
    | cons first others ih =>
      cases others with
      | nil => simp [TypeExpression.runEnds_lexemes h]
      | cons second others =>
        simp only [List.map_cons, List.intercalate_cons_cons, List.append_assoc, List.nil_append,
          List.cons_append] at ih ⊢
        rw [TypeExpression.runEnds_lexemes ⟨rfl, rfl⟩, runEnds_cons rfl, ih]
  unfold parameterLexemes
  split
  · rename_i hnil
    subst hnil
    simp [runEnds, h.detached]
  · exact hlist

/-- Parameters begin with a word, so that no declarator begins with them. -/
theorem continuesType_parameters
    (module : String)
    (parameters : List (String × TypeExpression))
    (lexemes : List Lexeme) :
    continuesType (.opening .round :: parameterLexemes module parameters ++ lexemes) = false := by
  have hword : ∃ word rest, parameterLexemes module parameters ++ lexemes = .word word :: rest := by
    unfold parameterLexemes
    split
    · exact ⟨_, _, rfl⟩
    · cases parameters with
      | nil => contradiction
      | cons first others =>
        obtain ⟨word, rest, hfront, -⟩ :=
          first.2.exists_front_eq (mangle module first.1) (first.2.back module)
        cases others with
        | nil => exact ⟨word, rest ++ lexemes, by simp [TypeExpression.lexemes, hfront]⟩
        | cons second others =>
          rw [List.map_cons, List.map_cons, List.intercalate_cons_cons, TypeExpression.lexemes,
            hfront]
          exact ⟨word, _, rfl⟩
  obtain ⟨word, rest, hword⟩ := hword
  rw [List.cons_append, hword]
  rfl

namespace Heading

variable {h : Heading}

theorem exists_lexemes_eq (h : Heading) (lexemes : List Lexeme) :
    ∃ word rest, h.lexemes module ++ lexemes = .word word :: rest ∧ continuesType rest = true := by
  rw [Heading.lexemes, List.append_assoc, List.append_assoc, List.cons_append]
  cases h.result with
  | none => exact ⟨_, _, rfl, rfl⟩
  | some type => exact type.exists_front_eq _ _

theorem runEnds_lexemes (hends : EndsType lexemes) (behind : Bool) :
    runEnds behind (h.lexemes module ++ lexemes) =
      (h.name.name :: h.parameterList.map Prod.fst).map (mangle module) ++
        runEnds false lexemes := by
  have hfront : ∀ rest, continuesType rest = false → runEnds behind
      (h.result.elim [.word "void"] TypeExpression.front ++
        .word (mangle module h.name.name) :: rest) =
        mangle module h.name.name :: runEnds true rest := by
    intro rest hrest
    cases h.result with
    | none => simp [runEnds, hrest]
    | some type => exact TypeExpression.runEnds_front hrest behind
  have hback : runEnds false (h.result.elim [] (TypeExpression.back module) ++ lexemes) =
      runEnds false lexemes := by
    cases h.result with
    | none => rfl
    | some type => exact (type.endsType_back hends).2 false
  have hstops := continuesType_parameters module h.parameterList
    (.closing .round :: h.result.elim [] (TypeExpression.back module) ++ lexemes)
  simp only [Heading.lexemes, List.append_assoc, List.cons_append] at hstops ⊢
  rw [hfront _ hstops, runEnds_cons rfl, runEnds_parameters ⟨rfl, rfl⟩, runEnds_cons rfl, hback]
  rfl

end Heading

/-! ### The lines of declarations -/

/-- What stands in front of a definition. -/
def Marked.storage (name : Marked) : List Lexeme := if name.exported then [] else [.word "static"]

theorem linesFrom_linkage
    {line : List Lexeme} {rest : List Char} (name : Marked) :
    linesFrom line .nothing ((Item.linkage name).toList ++ rest) =
      linesFrom (line ++ name.storage) .nothing rest := by
  unfold Item.linkage Marked.storage
  split
  · simp
  · exact Lexeme.linesFrom_append [.word "static"] (by decide) rfl

theorem Marked.storage_eq (name : Marked) :
    name.storage = [] ∨ ∃ word, name.storage = [.word word] := by
  unfold Marked.storage
  split
  · exact Or.inl rfl
  · exact Or.inr ⟨_, rfl⟩

theorem TypeExpression.namings_lexemes
    {storage : List Lexeme}
    (hstorage : storage = [] ∨ ∃ word, storage = [.word word])
    (type : TypeExpression) :
    namings (storage ++ (type.lexemes module name ++ [.other ";"])) =
      [.declared (mangle module name)] := by
  refine namings_declaration hstorage ?_ (type.runEnds_lexemes ⟨rfl, rfl⟩)
  simpa [TypeExpression.lexemes] using type.exists_front_eq (mangle module name)
    (type.back module ++ [.other ";"])

theorem Heading.namings_lexemes
    {storage : List Lexeme}
    (hstorage : storage = [] ∨ ∃ word, storage = [.word word])
    (h : Heading)
    (sign : String) :
    namings (storage ++ (h.lexemes module ++ [.other sign])) =
      ((h.name.name :: h.parameterList.map Prod.fst).map (mangle module)).map .declared := by
  refine namings_declaration hstorage (h.exists_lexemes_eq _) fun behind => ?_
  rw [h.runEnds_lexemes ⟨rfl, rfl⟩, runEnds_cons rfl, runEnds, List.append_nil]

/-- What the line of an exported item brings in. -/
theorem Item.namings_line (item : Item) :
    Target.namings (item.line module) = item.namings.map (Naming.map (mangle module)) := by
  cases item with
  | constant c => rfl
  | «variable» name type => exact type.namings_lexemes (Or.inr ⟨"extern", rfl⟩)
  | procedure heading body =>
    have hline : Target.namings (line module (procedure heading body)) = _ :=
      heading.namings_lexemes (Or.inr ⟨"extern", rfl⟩) ";"
    simpa [Item.namings, declared, Naming.map, Function.comp_def] using hline

theorem brings_newline : Brings "\n".toList [] := brings_literal "" (by decide) rfl rfl

theorem Constant.brings_line
    {c : Constant}
    (hmodule : Alphanumeric module.toList)
    (h : ∀ word ∈ c.spelling, word.Legible) :
    Brings (c.line module).toList [.defined (mangle module c.name.name)] := by
  have hitem : LegiblePhrase (Item.constant c).words (Item.constant c).members :=
    ⟨h, by simp [Item.members]⟩
  exact Brings.line fun rest => Item.linesFrom_interfaceLine hmodule hitem

/-- A line that declares a variable. -/
theorem TypeExpression.linesFrom_definition
    {type : TypeExpression}
    {line : List Lexeme}
    {rest : List Char}
    (hmodule : Alphanumeric module.toList)
    (hname : Alphanumeric name.toList)
    (h : LegiblePhrase type.spelling type.members) :
    linesFrom line .nothing ((type.declarator module name ++ ";\n").toList ++ rest) =
      (line ++ (type.lexemes module name ++ [.other ";"])) :: linesFrom [] .nothing rest := by
  rw [String.toList_append, List.append_assoc,
    linesFrom_declarator hmodule hname h (Lexeme.breaks_append _ (by decide)),
    Item.linesFrom_semicolon, List.append_assoc]

namespace VariableGroup

variable {g : VariableGroup}

theorem brings_localText
    (hmodule : Alphanumeric module.toList)
    (h : LegiblePhrase g.spelling g.type.members) :
    Brings (g.localText module).toList (g.names.map fun v => .declared (mangle module v.name)) := by
  refine Brings.each fun v hv => ?_
  obtain ⟨hname, htype⟩ := legible_name h hv
  rw [← g.type.namings_lexemes (Or.inl rfl)]
  exact Brings.line fun rest => TypeExpression.linesFrom_definition hmodule hname htype

theorem brings_definitions
    (hmodule : Alphanumeric module.toList)
    (h : LegiblePhrase g.spelling g.type.members) :
    Brings (String.join (g.items.map (Item.definition module))).toList
      (g.names.map fun v => .declared (mangle module v.name)) := by
  rw [items, List.map_map]
  refine Brings.each fun v hv => ?_
  obtain ⟨hname, htype⟩ := legible_name h hv
  rw [← g.type.namings_lexemes v.storage_eq]
  refine Brings.line fun rest => ?_
  have hline : linesFrom v.storage .nothing
      ((g.type.declarator module v.name ++ ";\n").toList ++ rest) =
      _ :=
    TypeExpression.linesFrom_definition hmodule hname htype
  simpa [Item.definition, linesFrom_linkage] using hline

end VariableGroup

theorem brings_block {block : Option Block} (hwords : ∀ word ∈ blockSpelling block, word.Legible)
    (haround : ∀ b ∈ block.toList, b.around.Legible) : Brings (blockText block).toList [] := by
  cases block with
  | none => exact .nil
  | some b =>
    exact bodyQuiet (haround b (by simp)) b.body fun word hword =>
      hwords word (List.mem_cons_of_mem _ hword)

theorem Procedure.flatMap_localGroups {α : Type} (p : Procedure) (f : VariableGroup → List α) :
    p.localGroups.flatMap f = p.locals.flatMap fun groups => groups.flatMap f := by
  rw [localGroups, List.flatten_eq_flatMap, List.flatMap_assoc]
  rfl

theorem Procedure.legible_heading
    {p : Procedure}
    (h : LegiblePhrase p.spelling (p.types.flatMap TypeExpression.members)) :
    p.heading.Legible := by
  refine h.mono (fun word hword => ?_) fun q hq => ?_
  · exact List.mem_append_left _ (List.mem_append_left _ (List.mem_append_left _ hword))
  · obtain ⟨type, htype, hq⟩ := List.mem_flatMap.1 hq
    exact List.mem_flatMap.2 ⟨type, List.mem_append_left _ htype, hq⟩

/-- The definition of a procedure declares its name and its own names. -/
theorem Procedure.brings_definition
    {p : Procedure}
    (hmodule : Alphanumeric module.toList)
    (h : LegiblePhrase p.spelling (p.types.flatMap TypeExpression.members))
    (haround : ∀ b ∈ p.block.toList, b.around.Legible) :
    Brings ((p.item module).definition module).toList
      (((p.heading.name.name :: p.ownNames).map (mangle module)).map .declared) := by
  have hlocals : Brings (localsText module p.locals).toList
      (p.locals.flatMap fun groups => groups.flatMap fun g => g.names.map
        fun v => .declared (mangle module v.name)) := by
    refine Brings.join fun groups hgroups => Brings.join fun g hg => ?_
    exact g.brings_localText hmodule
      (p.legiblePhrase_group h (List.mem_flatten.2 ⟨groups, hgroups, hg⟩))
  have hblock : Brings (blockText p.block).toList [] :=
    brings_block (fun word hword => h.words word (by simp [spelling, hword])) haround
  have hline : Brings (Item.linkage p.heading.name ++ p.heading.signature module ++
        " \x7b\n").toList
      (((p.heading.name.name :: p.heading.parameterList.map Prod.fst).map (mangle module)).map
        .declared) := by
    rw [← p.heading.namings_lexemes p.heading.name.storage_eq "\x7b"]
    refine Brings.line fun rest => ?_
    have hbrace : " \x7b\n".toList ++ rest = " \x7b".toList ++ ("\n".toList ++ rest) := by simp
    simp only [String.toList_append, List.append_assoc]
    rw [linesFrom_linkage, Heading.linesFrom_signature hmodule (legible_heading h), hbrace,
      Lexeme.linesFrom_line (by decide) rfl, List.nil_append, List.append_assoc]
    rfl
  have hwhole :=
    brings_newline.append
      (hline.append (hlocals.append (hblock.append (brings_literal "\x7d" (by decide) rfl rfl))))
  simpa [item, Item.definition, ownNames, flatMap_localGroups, List.map_flatMap, Function.comp_def]
    using hwhole

/-- What the definitions of a section bring in. -/
theorem Section.brings_definitions
    {s : Section}
    (hmodule : Alphanumeric module.toList)
    (h : LegiblePhrase s.spelling (s.types.flatMap TypeExpression.members))
    (haround : ∀ b ∈ s.blocks, b.around.Legible) :
    Brings (String.join ((s.items module).map (Item.definition module))).toList
      (s.namings.map (Naming.map (mangle module))) := by
  cases s with
  | constants list =>
    have hconstant : ∀ c ∈ list, Brings ((Item.constant c).definition module).toList
        (if c.name.exported then [] else [.defined (mangle module c.name.name)]) := by
      intro c hc
      rw [Item.definition]
      split
      · exact .nil
      · refine c.brings_line hmodule fun word hword => h.words word ?_
        exact List.mem_cons_of_mem _ (List.mem_flatMap.2 ⟨c, hc, hword⟩)
    have hfound : ∀ list : List Constant,
        (list.flatMap fun c => if c.name.exported then []
          else [.defined (mangle module c.name.name)]) =
          (list.filter fun c => !c.name.exported).map fun c =>
            Naming.defined (mangle module c.name.name) := by
      intro list
      induction list with
      | nil => rfl
      | cons c list ih => cases hexported : c.name.exported <;> simp [hexported, ih]
    have hlist := Brings.join hconstant
    rw [hfound] at hlist
    simpa [items, namings, constantList, linkedNames, ownNames, Naming.map, Function.comp_def]
      using hlist
  | variableGroups groups =>
    have hgroup : ∀ g ∈ groups, Brings (String.join (g.items.map (Item.definition module))).toList
        (g.names.map fun v => .declared (mangle module v.name)) := by
      intro g hg
      refine g.brings_definitions hmodule (h.mono (fun word hword => ?_) fun q hq => ?_)
      · exact List.mem_cons_of_mem _ (List.mem_flatMap.2 ⟨g, hg, hword⟩)
      · exact List.mem_flatMap.2 ⟨g.type, List.mem_map_of_mem hg, hq⟩
    have hgroups := Brings.joinAll hgroup
    simpa [items, namings, constantList, linkedNames, ownNames, Naming.map, Function.comp_def,
      List.map_flatMap] using hgroups
  | procedure p =>
    have hprocedure :=
      p.brings_definition hmodule (h.mono (by simp [spelling]) (List.Subset.refl _)) haround
    simpa [items, namings, constantList, linkedNames, ownNames, Naming.map, Function.comp_def]
      using hprocedure

end Grammar
end Oberon
