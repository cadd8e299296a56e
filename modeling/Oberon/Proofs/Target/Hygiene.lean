import Oberon.Proofs.Distinct
import Oberon.Proofs.Target.Declarators

/-!
# Declared names and the preprocessor

Constants are defined for the preprocessor, and so are the include guard `H` and the shift macro
`ASH` of a module.  What the preprocessor knows in front of a declaration it puts in the place of
the declared name.

**Captured names.**  The names of constants, variables and procedures of a module are distinct, and
`ASH` is reserved.  But a variable may be called `H`, and a parameter or a local variable may be
called like a constant of the module.  The constant is known there if it is declared in front of the
procedure, or anywhere if it is exported, because the interface is included first.

**Main result.**  `hygienic_units_iff`: the preprocessor leaves the declared names of a compiled
module alone exactly if there are no such names.
-/

namespace Oberon
namespace Grammar

open Target

namespace Module

def constantList (m : Module) : List Constant := m.sections.flatMap Section.constantList

def linkedNames (m : Module) : List String := m.sections.flatMap Section.linkedNames

def ownNames (m : Module) : List String := m.sections.flatMap Section.ownNames

/-- The preprocessor knows no name where it is declared. -/
structure Uncaptured (m : Module) : Prop where
  /-- Nothing is called like the include guard. -/
  guard : "H" ∉ m.linkedNames ++ m.ownNames
  /-- No parameter and no local variable is called like an exported constant. -/
  exported : ∀ c ∈ m.constantList, c.name.exported = true → c.name.name ∉ m.ownNames
  /-- Nor is one called like a constant in front of the procedure. -/
  inFront : m.sections.Pairwise fun earlier later => ∀ c ∈ earlier.constantList,
    c.name.name ∉ later.ownNames

/-- The implementation behind the lines that include the interfaces. -/
def code (m : Module) : String :=
  "\n" ++ String.join (m.items.map (Item.definition m.name)) ++ initializerHead m.name ++
    blockText m.block ++ "\x7d\n"

/-- What the interface defines and declares, besides the initializer. -/
def interfaceNamings (m : Module) : List Naming :=
  [.defined "H", .defined "ASH"] ++ (m.items.filter Item.exported).flatMap Item.namings

/-- What the implementation defines and declares, besides the initializer. -/
def codeNamings (m : Module) : List Naming := m.sections.flatMap Section.namings

end Module

variable {module name : String}

/-! ### The units of a module -/

/-- A line that includes a file brings nothing in. -/
theorem brings_includeLine {header : String} (h : '"' ∉ header.toList) :
    Brings (includeLine header).toList [] := by
  have hquiet : ∀ more, namings ([.other "#", .word "include"] ++ more) = [] := by
    intro more
    cases more with
    | nil => rfl
    | cons lexeme more => cases lexeme <;> rfl
  have hname : InLine ('"' :: header.toList ++ ['"']) := .of_isQuoted (isQuoted_of_notMem h)
  have hline : Settles [] .nothing ("#include ".toList ++ ('"' :: header.toList ++ ['"'])) :=
    .scan [.other "#", .word "include"] (by decide) rfl (.of_forall hquiet rfl hname)
  simpa [includeLine] using hline.brings

/-- The head of the initializer declares its flag and the initializer itself. -/
theorem brings_initializerHead (hmodule : Alphanumeric module.toList) :
    Brings (initializerHead module).toList [.declared (initialized module),
      .declared (initializer module)] := by
  have hflag := isWord_initialized hmodule
  have hdeclared : Brings ("static bool " ++ initialized module ++ " = false;" ++ "\n").toList
      [.declared (initialized module)] :=
    brings_around [.word "static", .word "bool"] hflag (by decide) rfl (by decide) (by decide) rfl
  have hfunction : Brings ("void " ++ initializer module ++ "() \x7b" ++ "\n").toList
      [.declared (initializer module)] :=
    brings_around [.word "void"] (isWord_initializer hmodule) (by decide) rfl (by decide)
      (by decide) rfl
  have hguard : Brings ("if (" ++ initialized module ++ ") \x7b" ++ "\n").toList [] :=
    brings_around [.word "if", .opening .round] hflag (by decide) rfl (by decide) (by decide) rfl
  have hset : Brings ("" ++ initialized module ++ " = true;" ++ "\n").toList [] :=
    brings_around [] hflag (by decide) rfl (by decide) (by decide) rfl
  have hreturn :=
    (brings_literal "return;" (by decide) rfl rfl).append
      (brings_literal "\x7d" (by decide) rfl rfl)
  have hwhole :=
    brings_newline.append
      (hdeclared.append (hfunction.append (hguard.append (hreturn.append hset))))
  unfold initializerHead
  simpa using hwhole

namespace Module

variable {m : Module} {source : String}

theorem implementation_eq (m : Module) (header : String) :
    m.implementation header =
      String.join (m.allImports.map Import.includeLine) ++ includeLine header ++ m.code := by
  simp only [implementation, code, String.append_assoc]

theorem SpelledBy.namingsIn_implementation
    {header : String} (h : m.SpelledBy source) (hheader : '"' ∉ header.toList) :
    namingsIn (m.implementation header).toList = namingsIn m.code.toList := by
  have hincludes : Brings (String.join (m.allImports.map Import.includeLine)).toList
      (m.allImports.flatMap fun _ => []) := by
    refine Brings.join fun i hi => ?_
    obtain hempty | ⟨header, hheader, hline⟩ := h.includeLine_eq hi
    · rw [hempty]
      exact .nil
    · rw [hline]
      exact brings_includeLine hheader
  rw [List.flatMap_eq_nil_iff.2 fun _ _ => rfl] at hincludes
  rw [implementation_eq, String.toList_append, String.toList_append,
    hincludes.append (brings_includeLine hheader)]
  rfl

theorem namingsIn_interface
    (hmodule : Alphanumeric m.name.toList)
    (hitems : ∀ item ∈ m.items, LegiblePhrase item.words item.members) :
    namingsIn m.interface.toList =
      m.interfaceNamings.map (Naming.map (mangle m.name)) ++ [.declared (initializer m.name)] := by
  have hincludes : ∀ header ∈ standardHeaders,
      Target.namings (Lexeme.lex ("#include <" ++ header ++ ">").toList) = [] := by
    decide +kernel
  have hhead : (headLines m.name).flatMap Target.namings =
      [.defined (mangle m.name "H"), .defined (mangle m.name "ASH")] := by
    rw [headLines, List.flatMap_append, List.flatMap_append, flatMap_includes_eq_nil hincludes]
    rfl
  have htail : (tailLines m.name).flatMap Target.namings = [.declared (initializer m.name)] := rfl
  have hlines : ((m.items.filter Item.exported).map (Item.line m.name)).flatMap Target.namings =
      ((m.items.filter Item.exported).flatMap Item.namings).map (Naming.map (mangle m.name)) := by
    rw [List.flatMap_map, List.map_flatMap]
    simp only [Item.namings_line]
  rw [namingsIn, lines_interface hmodule hitems, List.flatMap_append, List.flatMap_append, hhead,
    hlines, htail, interfaceNamings,
    List.map_append]
  rfl

theorem SpelledBy.namingsIn_code
    (h : m.SpelledBy source) (haround : ∀ b ∈ m.blocks, b.around.Legible) :
    namingsIn m.code.toList =
      m.codeNamings.map (Naming.map (mangle m.name)) ++
        [.declared (initialized m.name), .declared (initializer m.name)] := by
  have hmodule := h.alphanumeric_name
  have hsections : Brings (String.join (m.items.map (Item.definition m.name))).toList
      (m.sections.flatMap fun s => s.namings.map (Naming.map (mangle m.name))) := by
    refine Brings.joinAll fun s hs => s.brings_definitions hmodule (h.legible_section hs)
      fun b hb => ?_
    exact haround b (List.mem_append_left _ (List.mem_flatMap.2 ⟨s, hs, hb⟩))
  have hblock : Brings (blockText m.block).toList [] :=
    brings_block (fun word hword => h.legible word (by simp [spelling, hword])) fun b hb =>
      haround b (List.mem_append_right _ hb)
  have hend := hblock.append (brings_literal "\x7d" (by decide) rfl rfl)
  have hwhole :=
    brings_newline.append (hsections.append ((brings_initializerHead hmodule).append hend))
  rw [← List.map_flatMap] at hwhole
  have hcode : Brings m.code.toList (m.codeNamings.map (Naming.map (mangle m.name)) ++
      [.declared (initialized m.name), .declared (initializer m.name)]) := by
    simpa [code, codeNamings] using hwhole
  exact hcode.namingsIn_eq

end Module

/-! ### Which names are defined and which are declared -/

@[simp] theorem Section.defined_mem_namings_iff {s : Section} :
    .defined name ∈ s.namings ↔
      ∃ c ∈ s.constantList, c.name.exported = false ∧ c.name.name = name := by
  simp [namings, and_assoc]

@[simp] theorem Section.declared_mem_namings_iff {s : Section} :
    .declared name ∈ s.namings ↔ name ∈ s.linkedNames ∨ name ∈ s.ownNames := by
  simp [namings]

theorem Section.constant_mem_items_iff {s : Section} {c : Constant} :
    .constant c ∈ s.items module ↔ c ∈ s.constantList := by
  cases s with
  | constants list => simp [items, constantList]
  | variableGroups groups => simp [items, VariableGroup.items, constantList]
  | procedure p => simp [items, Procedure.item, constantList]

/-- A section has either constants or declarations. -/
theorem Section.constantList_eq_nil_or (s : Section) :
    s.constantList = [] ∨ s.linkedNames = [] ∧ s.ownNames = [] := by
  cases s with
  | constants list => exact Or.inr ⟨rfl, rfl⟩
  | variableGroups groups => exact Or.inl rfl
  | procedure p => exact Or.inl rfl

/-- The names that the items of a section declare are names of the section. -/
theorem Section.mem_names_of_declared {s : Section} {item : Item} (hitem : item ∈ s.items module)
    (h : .declared name ∈ item.namings) : name ∈ s.linkedNames ∨ name ∈ s.ownNames := by
  cases s with
  | constants list =>
    obtain ⟨c, -, rfl⟩ := List.mem_map.1 hitem
    simp [Item.namings] at h
  | variableGroups groups =>
    obtain ⟨g, hg, hitem⟩ := List.mem_flatMap.1 hitem
    obtain ⟨v, hv, rfl⟩ := List.mem_map.1 hitem
    obtain rfl : name = v.name := by simpa [Item.namings, Item.declared, Item.name] using h
    exact Or.inl (List.mem_flatMap.2 ⟨g, hg, List.mem_map_of_mem hv⟩)
  | procedure p =>
    obtain rfl := List.mem_singleton.1 hitem
    obtain rfl | hparameter : name = p.heading.name.name ∨
        name ∈ p.heading.parameterList.map Prod.fst := by
      simpa [Item.namings, Item.declared, Procedure.item] using h
    · exact Or.inl List.mem_cons_self
    · exact Or.inr (List.mem_append_left _ hparameter)

/-- The names of variables and procedures are those of items. -/
theorem Section.exists_item_of_linked (module : String) {s : Section} (h : name ∈ s.linkedNames) :
    ∃ item ∈ s.items module, item.linked = true ∧ item.name.name = name := by
  cases s with
  | constants list => cases h
  | variableGroups groups =>
    obtain ⟨g, hg, hname⟩ := List.mem_flatMap.1 h
    obtain ⟨v, hv, rfl⟩ := List.mem_map.1 hname
    exact ⟨.variable v g.type, List.mem_flatMap.2 ⟨g, hg, List.mem_map_of_mem hv⟩, rfl, rfl⟩
  | procedure p =>
    obtain rfl := List.mem_singleton.1 h
    exact ⟨p.item module, List.mem_singleton_self _, rfl, rfl⟩

/-- The names of a section stand in its words. -/
theorem Section.identifier_mem_spelling
    {s : Section} (h : name ∈ s.linkedNames ∨ name ∈ s.ownNames) :
    Word.identifier name ∈ s.spelling := by
  obtain hlinked | hown := h
  · obtain ⟨item, hitem, -, rfl⟩ := s.exists_item_of_linked "" hlinked
    exact (s.item_subset hitem).1 item.identifier_mem_words
  · cases s with
    | constants list => cases hown
    | variableGroups groups => cases hown
    | procedure p =>
      refine List.mem_cons_of_mem _ ?_
      obtain hfirst | hlocal := List.mem_append.1 hown
      · obtain ⟨parameter, hparameter, rfl⟩ := List.mem_map.1 hfirst
        have hrest := Heading.identifier_mem_rest hparameter
        simp [Procedure.spelling, hrest]
      · obtain ⟨g, hg, hname⟩ := List.mem_flatMap.1 hlocal
        obtain ⟨v, hv, rfl⟩ := List.mem_map.1 hname
        have hitem : Item.variable v g.type ∈ g.items := List.mem_map_of_mem hv
        exact p.group_subset hg ((g.item_subset hitem).1 (Item.identifier_mem_words _))

namespace Module

variable {m : Module} {source : String}

theorem constant_mem_items_iff {c : Constant} : .constant c ∈ m.items ↔ c ∈ m.constantList := by
  simp [items, constantList, Section.constant_mem_items_iff]

/-- No name of a source is reserved. -/
theorem SpelledBy.unreserved
    (h : m.SpelledBy source) (hname : name ∈ m.linkedNames ∨ name ∈ m.ownNames) :
    Keyword.ofSpelling? name = none := by
  have hspelling : Word.identifier name ∈ m.spelling := by
    obtain ⟨s, hs, hname⟩ : ∃ s ∈ m.sections, name ∈ s.linkedNames ∨ name ∈ s.ownNames := by
      obtain hname | hname := hname
      · obtain ⟨s, hs, hname⟩ := List.mem_flatMap.1 hname
        exact ⟨s, hs, Or.inl hname⟩
      · obtain ⟨s, hs, hname⟩ := List.mem_flatMap.1 hname
        exact ⟨s, hs, Or.inr hname⟩
    have hsections : Word.identifier name ∈ m.sections.flatMap Section.spelling :=
      List.mem_flatMap.2 ⟨s, hs, s.identifier_mem_spelling hname⟩
    simp [spelling, hsections]
  obtain ⟨t, _, _, hword, hnext⟩ := h.exists_next hspelling
  obtain ⟨hkind, rfl⟩ := (t.word_eq_identifier_iff name).1 hword
  exact Cursor.classified_of_next_reserved hnext hkind

/-- In a compiled module no variable and no procedure is called like a constant. -/
theorem name_notMem_linkedNames
    {inner : List (String × Symbol.Kind)}
    (hdeclared : Declared .module inner)
    (hentries : inner.map outlined = m.entries)
    {c : Constant}
    (hc : c ∈ m.constantList) :
    c.name.name ∉ m.linkedNames := by
  intro hname
  obtain ⟨s, hs, hname⟩ := List.mem_flatMap.1 hname
  obtain ⟨item, hitem, hlinked, hname⟩ := s.exists_item_of_linked m.name hname
  -- The entry of an item is an outline of one that was declared.
  have hentry : ∀ item ∈ m.items,
      ∃ kind, (item.name.name, kind) ∈ inner ∧ kind.outline = item.entry.2 := by
    intro item hitem
    have hmem : item.entry ∈ inner.map outlined := by
      rw [hentries]
      exact List.mem_append_right _ (List.mem_map_of_mem hitem)
    obtain ⟨⟨name, kind⟩, hmem, heq⟩ := List.mem_map.1 hmem
    obtain rfl : name = item.name.name := by
      have hfirst := congrArg Prod.fst heq
      cases item <;> exact hfirst
    exact ⟨kind, hmem, congrArg Prod.snd heq⟩
  obtain ⟨a, ha, haKind⟩ := hentry _ (constant_mem_items_iff.2 hc)
  obtain ⟨b, hb, hbKind⟩ := hentry item (List.mem_flatMap.2 ⟨s, hs, hitem⟩)
  rw [hname] at hb
  have hne : a ≠ .imported ∧ b ≠ .imported := by
    constructor
    · rintro rfl
      cases haKind
    · rintro rfl
      cases item <;> cases hbKind
  obtain rfl := hdeclared.kind_eq_of_same_name ha hb hne.1 hne.2
  rw [haKind] at hbKind
  cases item with
  | constant c => cases hlinked
  | «variable» name type => cases hbKind
  | procedure heading body => cases hbKind

theorem defined_mem_interfaceNamings_iff :
    .defined name ∈ m.interfaceNamings ↔
      name = "H" ∨
      name = "ASH" ∨
      ∃ c ∈ m.constantList, c.name.exported = true ∧ c.name.name = name := by
  have hitem : ∀ item : Item,
      .defined name ∈ item.namings ↔ ∃ c, item = .constant c ∧ c.name.name = name := by
    intro item
    cases item <;> simp [Item.namings, eq_comm]
  simp only [interfaceNamings, List.mem_append, List.mem_cons, List.mem_flatMap, List.mem_filter,
    hitem, Naming.defined.injEq, List.not_mem_nil, or_false, ← constant_mem_items_iff, or_assoc]
  refine or_congr Iff.rfl (or_congr Iff.rfl ⟨?_, ?_⟩)
  · rintro ⟨_, ⟨hmem, hexported⟩, c, rfl, hname⟩
    exact ⟨c, hmem, hexported, hname⟩
  · rintro ⟨c, hmem, hexported, hname⟩
    exact ⟨_, ⟨hmem, hexported⟩, c, rfl, hname⟩

theorem declared_mem_codeNamings_iff :
    .declared name ∈ m.codeNamings ↔ name ∈ m.linkedNames ∨ name ∈ m.ownNames := by
  simp only [codeNamings, linkedNames, ownNames, List.mem_flatMap, Section.declared_mem_namings_iff,
    ← exists_or, ← and_or_left]

/-- The interface declares no other names than the implementation. -/
theorem declared_mem_codeNamings (h : .declared name ∈ m.interfaceNamings) :
    .declared name ∈ m.codeNamings := by
  obtain hhead | hitems := List.mem_append.1 h
  · simp at hhead
  · obtain ⟨item, hitem, hname⟩ := List.mem_flatMap.1 hitems
    obtain ⟨s, hs, hitem⟩ := List.mem_flatMap.1 (List.mem_of_mem_filter hitem)
    exact List.mem_flatMap.2 ⟨s, hs,
      Section.declared_mem_namings_iff.2 (s.mem_names_of_declared hitem hname)⟩

/--
In the implementation a constant can capture the names that procedures behind it declare for
themselves.
-/
theorem hygienic_codeNamings_iff (hdistinct : ∀ c ∈ m.constantList, c.name.name ∉ m.linkedNames) :
    Hygienic m.codeNamings ↔ m.sections.Pairwise fun earlier later =>
      ∀ c ∈ earlier.constantList, c.name.exported = false → c.name.name ∉ later.ownNames := by
  have hsection : ∀ s ∈ m.sections, Hygienic s.namings := by
    intro s _
    refine .of_disjoint fun name hdefined hdeclared => ?_
    obtain ⟨c, hc, -⟩ := Section.defined_mem_namings_iff.1 hdefined
    obtain hnil | ⟨hlinked, hown⟩ := s.constantList_eq_nil_or
    · rw [hnil] at hc
      cases hc
    · simp [hlinked, hown] at hdeclared
  rw [codeNamings, Hygienic, List.pairwise_flatMap]
  refine (and_iff_right hsection).trans (List.Pairwise.iff_of_mem
    fun {earlier later} hearlier hlater => ⟨?_, ?_⟩)
  · intro h c hc hexported hown
    exact h _ (Section.defined_mem_namings_iff.2 ⟨c, hc, hexported, rfl⟩) _
      (Section.declared_mem_namings_iff.2 (Or.inr hown))
      (Naming.captures_iff.2 ⟨_, rfl, rfl⟩)
  · intro h a hdefined b hdeclared hcaptures
    obtain ⟨name, rfl, rfl⟩ := Naming.captures_iff.1 hcaptures
    obtain ⟨c, hc, hexported, rfl⟩ := Section.defined_mem_namings_iff.1 hdefined
    obtain hlinked | hown := Section.declared_mem_namings_iff.1 hdeclared
    · exact hdistinct c (List.mem_flatMap.2 ⟨earlier, hearlier, hc⟩)
        (List.mem_flatMap.2 ⟨later, hlater, hlinked⟩)
    · exact h c hc hexported hown

/--
The preprocessor captures what it knows: the include guard, exported constants everywhere and other
constants behind them.
-/
theorem hygienic_namings_iff
    (hdistinct : ∀ c ∈ m.constantList, c.name.name ∉ m.linkedNames)
    (hshift : .declared "ASH" ∉ m.codeNamings) :
    Hygienic (m.interfaceNamings ++ m.codeNamings) ↔ m.Uncaptured := by
  rw [hygienic_append_iff, hygienic_codeNamings_iff hdistinct]
  constructor
  · rintro ⟨-, hcode, hboth⟩
    have hexported : ∀ c ∈ m.constantList, c.name.exported = true → c.name.name ∉ m.ownNames := by
      intro c hc hmark hown
      exact hboth _ (defined_mem_interfaceNamings_iff.2 (Or.inr (Or.inr ⟨c, hc, hmark, rfl⟩)))
        (declared_mem_codeNamings_iff.2 (Or.inr hown))
    refine ⟨fun hguard => ?_, hexported, hcode.imp_of_mem
      fun {earlier later} hearlier hlater h c hc hown => ?_⟩
    · exact hboth _ (defined_mem_interfaceNamings_iff.2 (Or.inl rfl))
        (declared_mem_codeNamings_iff.2 (List.mem_append.1 hguard))
    · cases hmark : c.name.exported with
      | false => exact h c hc hmark hown
      | true =>
        exact hexported c (List.mem_flatMap.2 ⟨earlier, hearlier, hc⟩) hmark
          (List.mem_flatMap.2 ⟨later, hlater, hown⟩)
  · rintro ⟨hguard, hexported, hfront⟩
    have hboth : ∀ name, .defined name ∈ m.interfaceNamings → .declared name ∉ m.codeNamings := by
      intro name hdefined hdeclared
      obtain rfl | rfl | ⟨c, hc, hmark, rfl⟩ := defined_mem_interfaceNamings_iff.1 hdefined
      · exact hguard (List.mem_append.2 (declared_mem_codeNamings_iff.1 hdeclared))
      · exact hshift hdeclared
      · obtain hlinked | hown := declared_mem_codeNamings_iff.1 hdeclared
        · exact hdistinct c hc hlinked
        · exact hexported c hc hmark hown
    refine ⟨.of_disjoint fun name hdefined hdeclared => ?_, hfront.imp fun h c hc _ => h c hc,
      hboth⟩
    exact hboth name hdefined (declared_mem_codeNamings hdeclared)

/-- The names of an initializer have more underscores than those of a module. -/
theorem mangle_ne_initializer
    {other : String}
    (hmodule : Alphanumeric module.toList)
    (hname : Alphanumeric name.toList)
    (hother : Alphanumeric other.toList) :
    mangle module name ≠ initializer other ∧ mangle module name ≠ initialized other := by
  have hzero : ∀ {text : String}, Alphanumeric text.toList → text.toList.count '_' = 0 := fun h =>
    List.count_eq_zero.2 h.underscore_notMem
  have hmangled : (mangle module name).toList.count '_' = 1 := by
    simp [mangle, List.count_append, hzero hmodule, hzero hname]
  have hinitializer : (initializer other).toList.count '_' = 2 := by
    simp [initializer, List.count_append, hzero hother]
  have hinitialized : (initialized other).toList.count '_' = 2 := by
    simp [initialized, List.count_append, hzero hother]
  constructor
  · intro heq
    rw [heq, hinitializer] at hmangled
    cases hmangled
  · intro heq
    rw [heq, hinitialized] at hmangled
    cases hmangled

theorem SpelledBy.alphanumeric_of_defined
    (h : m.SpelledBy source)
    (hdefined : .defined name ∈ m.interfaceNamings ++ m.codeNamings) :
    Alphanumeric name.toList := by
  have hconstant : ∀ c ∈ m.constantList, Alphanumeric c.name.name.toList := fun c hc =>
    Item.alphanumeric_name (h.legible_item (constant_mem_items_iff.2 hc))
  obtain hdefined | hdefined := List.mem_append.1 hdefined
  · obtain rfl | rfl | ⟨c, hc, -, rfl⟩ := defined_mem_interfaceNamings_iff.1 hdefined
    · simp [Alphanumeric]
    · simp [Alphanumeric]
    · exact hconstant c hc
  · obtain ⟨s, hs, hdefined⟩ := List.mem_flatMap.1 hdefined
    obtain ⟨c, hc, -, rfl⟩ := Section.defined_mem_namings_iff.1 hdefined
    exact hconstant c (List.mem_flatMap.2 ⟨s, hs, hc⟩)

/-- The initializer is never captured. -/
theorem SpelledBy.hygienic_iff
    (h : m.SpelledBy source) (haround : ∀ b ∈ m.blocks, b.around.Legible) :
    Hygienic (namingsIn m.interface.toList ++ namingsIn m.code.toList) ↔
      Hygienic (m.interfaceNamings ++ m.codeNamings) := by
  have hmodule := h.alphanumeric_name
  have hnames : ∀ name ∈ [initialized m.name, initializer m.name],
      .defined name ∉ (m.interfaceNamings ++ m.codeNamings).map (Naming.map (mangle m.name)) := by
    intro name hname hdefined
    obtain ⟨naming, hnaming, heq⟩ := List.mem_map.1 hdefined
    cases naming with
    | declared own => cases heq
    | defined own =>
      cases heq
      obtain ⟨hinitializer, hinitialized⟩ :=
        mangle_ne_initializer hmodule (h.alphanumeric_of_defined hnaming) hmodule
      simp [hinitializer, hinitialized] at hname
  rw [List.map_append] at hnames
  have htail : ∀ name ∈ [initializer m.name],
      .defined name ∉ m.interfaceNamings.map (Naming.map (mangle m.name)) := by
    intro name hname hdefined
    exact hnames name (List.mem_cons_of_mem _ hname) (List.mem_append_left _ hdefined)
  calc Hygienic (namingsIn m.interface.toList ++ namingsIn m.code.toList)
      ↔ Hygienic (m.interfaceNamings.map (Naming.map (mangle m.name)) ++
        ([initializer m.name].map .declared ++
          (m.codeNamings.map (Naming.map (mangle m.name)) ++
            [initialized m.name, initializer m.name].map .declared))) := by
        rw [namingsIn_interface hmodule fun item hitem => h.legible_item hitem,
          h.namingsIn_code haround, List.append_assoc]
        rfl
    _ ↔ Hygienic (m.interfaceNamings.map (Naming.map (mangle m.name)) ++
      m.codeNamings.map (Naming.map (mangle m.name)) ++
          ([initialized m.name, initializer m.name].map .declared ++ [])) := by
        rw [hygienic_leaveOut_iff htail, List.append_nil, List.append_assoc]
    _ ↔ Hygienic (m.interfaceNamings ++ m.codeNamings) := by
        rw [hygienic_leaveOut_iff hnames, List.append_nil, ← List.map_append,
          hygienic_map_iff (mangle_injective m.name)]

end Module

end Grammar

open Grammar Target in
/--
The preprocessor leaves alone the names that a compiled module declares exactly if no variable,
procedure, parameter or local variable is called `H`, and no parameter or local variable is called
like an exported constant or like a constant in front of the procedure.  What is known to the
preprocessor is what the interface and, behind the lines that include it, the implementation define.
-/
theorem hygienic_units_iff
    {name source header : String}
    {limits : Limits}
    {units : Units}
    (h : compile name source header limits = .ok units) :
    ∃ m : Module,
      m.SpelledBy source ∧
      units.interface = m.interface ∧
      units.implementation =
        String.join (m.allImports.map Import.includeLine) ++ includeLine header ++ m.code ∧
      (Hygienic (namingsIn units.interface.toList ++ namingsIn m.code.toList) ↔ m.Uncaptured) := by
  obtain ⟨m, start, final, hspelled, hstart, hperform, rfl, houtline, haround⟩ :=
    Compilation.exists_legible_compiled h
  obtain ⟨inner, hdeclared, hentries⟩ :=
    Compilation.exists_declared_of_perform hstart hperform houtline
  have hshift : .declared "ASH" ∉ m.codeNamings := by
    intro hshift
    have hreserved := hspelled.unreserved (Module.declared_mem_codeNamings_iff.1 hshift)
    revert hreserved
    decide
  refine ⟨m, hspelled, rfl, m.implementation_eq header, (hspelled.hygienic_iff haround).trans ?_⟩
  exact Module.hygienic_namings_iff
    (fun c hc => Module.name_notMem_linkedNames hdeclared hentries hc) hshift

open Grammar Target in
/-- A parameter with the name of a constant in front of the procedure. -/
theorem not_hygienic_of_constantParameter :
    ∃ (units : Units) (m : Module),
      compile "M.Mod" "MODULE M;CONST n=3;PROCEDURE P(n:CHAR);END P;END M." "M.h" {} = .ok units ∧
      m.SpelledBy "MODULE M;CONST n=3;PROCEDURE P(n:CHAR);END P;END M." ∧
      (Hygienic (namingsIn units.interface.toList ++ namingsIn m.code.toList) ↔ m.Uncaptured) ∧
      ¬ Hygienic (namingsIn units.interface.toList ++ namingsIn m.code.toList) := by
  have hchecked :
      (compile "M.Mod" "MODULE M;CONST n=3;PROCEDURE P(n:CHAR);END P;END M." "M.h" {}).toOption.map
        (fun units => decide (Hygienic
          (namingsIn units.interface.toList ++ namingsIn units.implementation.toList))) =
        some false := by
    decide +kernel
  obtain ⟨units, hunits, hnot⟩ := Option.map_eq_some_iff.1 hchecked
  rw [toOption_eq_some_iff] at hunits
  obtain ⟨m, hspelled, -, himplementation, hiff⟩ := hygienic_units_iff hunits
  rw [himplementation, ← Module.implementation_eq, hspelled.namingsIn_implementation (by decide)]
    at hnot
  exact ⟨units, m, hunits, hspelled, hiff, of_decide_eq_false hnot⟩

end Oberon
