import Oberon.Proofs.Target.Interface
import Oberon.Proofs.Target.Nesting

/-!
# The brackets of an implementation

The texts of types, declarations and whole modules are nested, because those of expressions and
statements are.  A type may open a bracket in front of the declared name and close it behind the
name, so that it is nested only together with what stands between.

**Main result.**  `brackets_match`: the brackets of every compiled implementation match, those
inside of quotes left out.
-/

namespace Oberon
namespace Target

namespace Nested

variable {spread : Bool}

theorem join {texts : List String} (h : ∀ text ∈ texts, Nested spread text.toList) :
    Nested spread (String.join texts).toList := by
  induction texts with
  | nil => exact .nil
  | cons text texts ih =>
    rw [String.join_cons, String.toList_append]
    exact (h text List.mem_cons_self).append (ih
      fun other hother => h other (List.mem_cons_of_mem _ hother))

theorem intercalate {texts : List String} (h : ∀ text ∈ texts, Nested false text.toList) :
    Nested false (", ".intercalate texts).toList := by
  induction texts with
  | nil => exact .nil
  | cons text texts ih =>
    have htext := h text List.mem_cons_self
    cases texts with
    | nil => simpa using htext
    | cons next texts =>
      rw [String.intercalate_cons_cons, String.toList_append, String.toList_append]
      exact (htext.append (.plain ", " (by decide))).append (ih
        fun other hother => h other (List.mem_cons_of_mem _ hother))

end Nested

theorem isQuoted_of_notMem {text : List Char} (h : '"' ∉ text) :
    IsQuoted ('"' :: text ++ ['"']) := by
  refine ⟨'"', text, Or.inl rfl, ?_, rfl⟩
  rintro c hc rfl
  exact h hc

theorem nested_includeLine {header : String} (h : '"' ∉ header.toList) :
    Nested true (includeLine header).toList := by
  have hname : Nested true ('"' :: header.toList ++ ['"'] ++ "\n".toList) :=
    .quoted (isQuoted_of_notMem h) (.plain "\n" (by decide))
  simpa [includeLine] using (Nested.plain "#include " (by decide)).append hname

end Target

namespace Grammar

open Target

variable {module : String}

/-! ### Declarations -/

theorem ElementType.nested_around
    {e : ElementType}
    (h : LegiblePhrase e.spelling e.members)
    {inner : List Char}
    (hinner : Nested false inner) :
    Nested false (e.left.toList ++ inner ++ e.right.toList) := by
  cases e with
  | pointer base =>
    cases base with
    | none => simpa [left, right] using (Nested.plain "void *" (by decide)).append hinner
    | some base =>
      have hbase : Lexeme.IsWord base.text.toList :=
        base.isWord_text (h.mono (by simp [spelling]) (by simp [members]))
      have hstar := (Nested.plain " *" (by decide)).append hinner
      simpa [left, right] using (Nested.word hbase).append hstar
  | procedure =>
    have hgroup :=
      Nested.round ((Nested.plain "*" (by decide)).append hinner) (Nested.round .nil .nil)
    simpa [left, right] using (Nested.plain "void " (by decide)).append hgroup
  | basic type => simpa [left, right] using (Nested.word (type.isWord_text h)).append hinner

namespace TypeExpression

variable {type : TypeExpression}

theorem nested_around
    (hmodule : Alphanumeric module.toList)
    (h : LegiblePhrase type.spelling type.members)
    {inner : List Char}
    (hinner : Nested false inner) :
    Nested false (type.left.toList ++ inner ++ (type.right module).toList) := by
  cases type with
  | array size elements =>
    have hsize : Nested false (size.text module).toList :=
      .word (size.isWord_text hmodule (legiblePhrase_size h))
    have helements :=
      elements.nested_around (legiblePhrase_elements h) (hinner.append (Nested.square hsize .nil))
    simpa [left, right] using helements
  | plain type => exact type.nested_around h hinner

theorem nested_declarator
    (hmodule : Alphanumeric module.toList)
    (h : LegiblePhrase type.spelling type.members)
    {name : String}
    (hname : Alphanumeric name.toList) :
    Nested false (type.declarator module name).toList := by
  have haround :=
    nested_around hmodule h ((Nested.plain " " (by decide)).append (nested_mangle hmodule hname))
  simpa [declarator, declaration] using haround

end TypeExpression

theorem ConstantValue.nested {v : ConstantValue} (h : v.literal.word.Legible) :
    Nested false v.text.toList := by
  have hliteral := v.literal.nested h
  rw [text]
  split
  · simpa using Nested.round ((Nested.plain "-" (by decide)).append hliteral) .nil
  · exact hliteral

namespace Heading

variable {h : Heading}

theorem nested_parameters (hmodule : Alphanumeric module.toList) (hlegible : h.Legible) :
    Nested false (h.parametersText module).toList := by
  rw [parametersText_eq]
  split
  · exact .plain "void" (by decide)
  · refine .intercalate fun text htext => ?_
    obtain ⟨p, hp, rfl⟩ := List.mem_map.1 htext
    obtain ⟨hname, htype⟩ := hlegible.parameter hp
    exact TypeExpression.nested_declarator hmodule htype hname

theorem nested_signature (hmodule : Alphanumeric module.toList) (hlegible : h.Legible) :
    Nested false (h.signature module).toList := by
  have hname := (Nested.plain " " (by decide)).append (nested_mangle hmodule hlegible.name)
  have hinner := hname.append (Nested.round (nested_parameters hmodule hlegible) .nil)
  cases hresult : h.result with
  | none =>
    have htext := (Nested.plain "void" (by decide)).append hinner
    simpa [signature, hresult] using htext
  | some type =>
    have htext := TypeExpression.nested_around hmodule (hlegible.result hresult) hinner
    simpa [signature, hresult] using htext

end Heading

namespace Item

theorem nested_linkage (name : Marked) : Nested false (linkage name).toList := by
  unfold linkage
  split
  · exact .nil
  · exact .plain "static " (by decide)

/-- The definition of an item is nested, if that of a procedure has a nested body. -/
theorem nested_definition
    {item : Item}
    (hmodule : Alphanumeric module.toList)
    (h : LegiblePhrase item.words item.members)
    (hbody : ∀ heading body, item = .procedure heading body → Nested true body.toList) :
    Nested true (item.definition module).toList := by
  cases item with
  | constant c =>
    have hname : Alphanumeric c.name.name.toList := alphanumeric_name h
    have hvalue : c.value.literal.word.Legible :=
      h.words _ (by simp [words, Constant.spelling, ConstantValue.spelling])
    have hfront := (Nested.plain "#define\t" (by decide)).append (nested_mangle hmodule hname)
    have hline := (hfront.append (.plain "\t" (by decide))).append (ConstantValue.nested hvalue)
    rw [definition]
    split
    · exact .nil
    · simpa [Constant.line, constantLine] using hline.spreads.append (.plain "\n" (by decide))
  | «variable» name type =>
    have hname : Alphanumeric name.name.toList := alphanumeric_name h
    have htype : LegiblePhrase type.spelling type.members :=
      h.mono (by simp [words]) (by simp [members])
    have hline :=
      (nested_linkage name).append (TypeExpression.nested_declarator hmodule htype hname)
    simpa [definition] using hline.spreads.append (.plain ";\n" (by decide))
  | procedure heading body =>
    have hsignature := (nested_linkage heading.name).append (Heading.nested_signature hmodule h)
    have hblock :=
      Nested.curly ((Nested.plain "\n" (by decide)).append (hbody heading body rfl))
        (.plain "\n" (by decide))
    have hline := hsignature.spreads.append ((Nested.plain " " (by decide)).append hblock)
    simpa [definition] using (Nested.plain "\n" (by decide)).append hline

end Item

/-- The initializer around the body of a module. -/
theorem nested_initializer
    {body : List Char} (hmodule : Alphanumeric module.toList) (h : Nested true body) :
    Nested true ((initializerHead module).toList ++ body ++ "\x7d\n".toList) := by
  have hflag : Nested true (initialized module).toList := .word (isWord_initialized hmodule)
  have hname : Nested true (initializer module).toList := .word (isWord_initializer hmodule)
  have hreturn : Nested true " \x7b\nreturn;\n\x7d\n".toList :=
    (Nested.plain " " (by decide)).append
      (.curly (.plain "\nreturn;\n" (by decide)) (.plain "\n" (by decide)))
  have hguard := (Nested.plain "\nif " (by decide)).append (Nested.round hflag hreturn)
  have hset := (hflag.append (.plain " = true;\n" (by decide))).append h
  have hblock := Nested.curly (hguard.append hset) (.plain "\n" (by decide))
  have hfunction := hname.append (Nested.round .nil ((Nested.plain " " (by decide)).append hblock))
  have hdeclared := hflag.append ((Nested.plain " = false;\nvoid " (by decide)).append hfunction)
  have hwhole := (Nested.plain "\nstatic bool " (by decide)).append hdeclared
  unfold initializerHead
  simpa using hwhole

/-! ### Modules -/

theorem nested_block {block : Option Block} (hwords : ∀ word ∈ blockSpelling block, word.Legible)
    (haround : ∀ b ∈ block.toList, b.around.Legible) : Nested true (blockText block).toList := by
  cases block with
  | none => exact .nil
  | some b =>
    exact bodyNested (haround b (by simp)) b.body fun word hword =>
      hwords word (List.mem_cons_of_mem _ hword)

theorem VariableGroup.nested_localText {g : VariableGroup} (hmodule : Alphanumeric module.toList)
    (h : LegiblePhrase g.spelling g.type.members) : Nested true (g.localText module).toList := by
  refine .join fun text htext => ?_
  obtain ⟨v, hv, rfl⟩ := List.mem_map.1 htext
  obtain ⟨hname, htype⟩ := legible_name h hv
  have hline := TypeExpression.nested_declarator hmodule htype hname
  simpa using hline.spreads.append (.plain ";\n" (by decide))

namespace Procedure

variable {p : Procedure}

/-- The groups of local variables. -/
def localGroups (p : Procedure) : List VariableGroup := p.locals.flatten

theorem group_subset {g : VariableGroup} (hg : g ∈ p.localGroups) : g.spelling ⊆ p.spelling := by
  intro word hword
  obtain ⟨groups, hgroups, hg⟩ := List.mem_flatten.1 hg
  have hlocals : word ∈ localsSpelling p.locals :=
    List.mem_flatMap.2 ⟨groups, hgroups, List.mem_cons_of_mem _ (List.mem_flatMap.2 ⟨g, hg, hword⟩)⟩
  simp [spelling, hlocals]

theorem legiblePhrase_group
    {g : VariableGroup}
    (h : LegiblePhrase p.spelling (p.types.flatMap TypeExpression.members))
    (hg : g ∈ p.localGroups) :
    LegiblePhrase g.spelling g.type.members := by
  refine h.mono (group_subset hg) fun q hq => ?_
  obtain ⟨groups, hgroups, hg⟩ := List.mem_flatten.1 hg
  have hlocals : g.type ∈ p.locals.flatMap fun groups => groups.map VariableGroup.type :=
    List.mem_flatMap.2 ⟨groups, hgroups, List.mem_map_of_mem hg⟩
  exact List.mem_flatMap.2 ⟨g.type, List.mem_append_right _ hlocals, hq⟩

theorem nested_body
    (hmodule : Alphanumeric module.toList)
    (h : LegiblePhrase p.spelling (p.types.flatMap TypeExpression.members))
    (haround : ∀ b ∈ p.block.toList, b.around.Legible) :
    Nested true (localsText module p.locals ++ blockText p.block).toList := by
  have hlocals : Nested true (localsText module p.locals).toList := by
    refine .join fun text htext => ?_
    obtain ⟨groups, hgroups, rfl⟩ := List.mem_map.1 htext
    refine .join fun text htext => ?_
    obtain ⟨g, hg, rfl⟩ := List.mem_map.1 htext
    exact g.nested_localText hmodule
      (legiblePhrase_group h (List.mem_flatten.2 ⟨groups, hgroups, hg⟩))
  have hblock : Nested true (blockText p.block).toList :=
    nested_block (fun word hword => h.words word (by simp [spelling, hword])) haround
  rw [String.toList_append]
  exact hlocals.append hblock

end Procedure

theorem Section.nested_definition
    {s : Section}
    {item : Item}
    (hmodule : Alphanumeric module.toList)
    (h : LegiblePhrase s.spelling (s.types.flatMap TypeExpression.members))
    (haround : ∀ b ∈ s.blocks, b.around.Legible)
    (hitem : item ∈ s.items module) :
    Nested true (item.definition module).toList := by
  obtain ⟨hwords, hmembers⟩ := s.item_subset hitem
  refine Item.nested_definition hmodule (h.mono hwords hmembers) fun heading body hprocedure => ?_
  subst hprocedure
  cases s with
  | constants list => simp [items] at hitem
  | variableGroups groups => simp [items, VariableGroup.items] at hitem
  | procedure p =>
    obtain ⟨rfl, rfl⟩ : heading = p.heading ∧
        body = Procedure.localsText module p.locals ++ blockText p.block := by
      simpa [items, Procedure.item] using hitem
    exact p.nested_body hmodule (h.mono (by simp [spelling]) (List.Subset.refl _)) haround

namespace Module

variable {m : Module} {source : String}

/-- The line of an import includes a file whose name has no quotes, if there is a line. -/
theorem SpelledBy.includeLine_eq
    (h : m.SpelledBy source) {i : Import} (hi : i ∈ m.allImports) :
    i.includeLine = "" ∨
    ∃ header : String, '"' ∉ header.toList ∧ i.includeLine = includeLine header := by
  have hheader : ∀ called real, (called, real) ∈ i.modules → '"' ∉ (real ++ ".h").toList := by
    intro called real hmodule hmem
    have hreal : (called, real) ∈ m.modules :=
      List.mem_cons_of_mem _ (List.mem_flatMap.2 ⟨i, hi, hmodule⟩)
    rw [String.toList_append, List.mem_append] at hmem
    obtain hmem | hmem := hmem
    · exact absurd (h.alphanumeric_module hreal _ hmem) (by decide)
    · exact absurd hmem (by decide)
  cases i with
  | empty => exact Or.inl rfl
  | module name => exact Or.inr ⟨_, hheader name name (by simp [Import.modules]), rfl⟩
  | renamed name real => exact Or.inr ⟨_, hheader name real (by simp [Import.modules]), rfl⟩

theorem SpelledBy.nested_includes (h : m.SpelledBy source) :
    Nested true (String.join (m.allImports.map Import.includeLine)).toList := by
  refine .join fun text htext => ?_
  obtain ⟨i, hi, rfl⟩ := List.mem_map.1 htext
  obtain hempty | ⟨header, hheader, hline⟩ := h.includeLine_eq hi
  · rw [hempty]
    exact .nil
  · rw [hline]
    exact nested_includeLine hheader

theorem SpelledBy.nested_implementation {header : String} (h : m.SpelledBy source)
    (haround : ∀ b ∈ m.blocks, b.around.Legible) (hheader : '"' ∉ header.toList) :
    Nested true (m.implementation header).toList := by
  have hmodule := h.alphanumeric_name
  have hincludes :=
    h.nested_includes.append ((nested_includeLine hheader).append (.plain "\n" (by decide)))
  have hitems : Nested true (String.join (m.items.map (Item.definition m.name))).toList := by
    refine .join fun text htext => ?_
    obtain ⟨item, hitem, rfl⟩ := List.mem_map.1 htext
    obtain ⟨s, hs, hitem⟩ := List.mem_flatMap.1 hitem
    refine s.nested_definition hmodule (h.legible_section hs) (fun b hb => ?_) hitem
    exact haround b (List.mem_append_left _ (List.mem_flatMap.2 ⟨s, hs, hb⟩))
  have hblock : Nested true (blockText m.block).toList :=
    nested_block (fun word hword => h.legible word (by simp [spelling, hword])) fun b hb =>
      haround b (List.mem_append_right _ hb)
  have hwhole := hincludes.append (hitems.append (nested_initializer hmodule hblock))
  simpa only [implementation, String.toList_append, List.append_assoc] using hwhole

end Module

end Grammar

open Target in
/--
The brackets of a compiled implementation match.  The text without its quoted runs is well nested,
and each of its closing brackets closes the last bracket that is open in front of it.
-/
theorem brackets_match
    {name source header : String}
    {limits : Limits}
    {units : Units}
    (h : compile name source header limits = .ok units)
    (hheader : '"' ∉ header.toList) :
    ∃ plain,
      unquoted? units.implementation.toList = some plain ∧
      WellNested plain ∧
      ∀ before, before <+: plain → ∃ opened, openedBy before = some opened := by
  obtain ⟨m, start, final, hspelled, -, -, rfl, -, haround⟩ := Compilation.exists_legible_compiled h
  obtain ⟨plain, hplain, hnested⟩ := (hspelled.nested_implementation haround hheader).unquoted?
  exact ⟨plain, hplain, hnested, fun before hbefore => hnested.exists_openedBy hbefore⟩

open Target in
/-- A closing bracket inside of quotes has no partner and needs none. -/
theorem brackets_match_around_quotes :
    ∃ units plain,
      compile "M.Mod" "MODULE M;CONST c=\")\";END M." "M.h" {} = .ok units ∧
      openedBy units.implementation.toList = none ∧
      unquoted? units.implementation.toList = some plain ∧
      WellNested plain ∧
      ∀ before, before <+: plain → ∃ opened, openedBy before = some opened := by
  have hchecked : (compile "M.Mod" "MODULE M;CONST c=\")\";END M." "M.h" {}).toOption.map
      (fun units => openedBy units.implementation.toList) = some none := by decide +kernel
  obtain ⟨units, hunits, hquoted⟩ := Option.map_eq_some_iff.1 hchecked
  rw [Grammar.toOption_eq_some_iff] at hunits
  obtain ⟨plain, hplain, hnested, hbeginnings⟩ := brackets_match hunits (by decide)
  exact ⟨units, plain, hunits, hquoted, hplain, hnested, hbeginnings⟩

end Oberon
