import Oberon.Proofs.Translation.Declaration

/-!
# The translation of modules

A module that is compiled spells a module of the grammar, and the two units have exactly the texts
of what it declares.
-/

namespace Oberon
namespace Compilation

open Oberon.Grammar
open Oberon.Compilation.Action

variable {depth : Nat} {s t : State} {module : String} {owner : Scope.Owner}

/-! ### Imports -/

theorem scope_of_declare
    {name : String}
    {kind : Symbol.Kind}
    {type : DataType}
    {index : Nat}
    (h : (declare name kind type).Gives depth s index t) :
    t.scope = s.scope := by
  obtain ⟨symbols, -, rfl⟩ := (gives_declare name kind type index).1 h
  rfl

theorem leaves_of_importEntry
    {a : Unit} (hs : s.Within module .module depth) (h : importEntry.Gives depth s a t) :
    ∃ i : Import, s.Leaves i.trace t ∧ t.scope = s.scope := by
  unfold importEntry at h
  simp only [gives_bind, gives_sees, gives_ite, gives_pure, gives_accept_sign_iff, gives_discard]
    at h
  obtain ⟨_, s, ⟨-, rfl⟩, ⟨-, name, s₁, hname, _, s₂, hfresh, _, s₃, hassign, h⟩ | ⟨-, -, rfl⟩⟩ := h
  · rw [gives_identifier_iff] at hname
    obtain rfl := eq_of_requireFresh hfresh
    have hopen := open_of_requireFresh (hname.unreserved hs.orderly) hfresh
    have hwithin := hname.leaves.within hs
    obtain ⟨rfl, real, s₄, hreal, _, s₅, hfresh', _, s₆, hmodule, _, s₇, ⟨_, halias⟩, hwrite⟩ |
      ⟨hplain, _, s₄, ⟨_, hmodule⟩, hwrite⟩ := h
    · obtain ⟨hassign, -⟩ | ⟨-, -, hfalse⟩ := hassign
      · rw [gives_identifier_iff] at hreal
        obtain rfl := eq_of_requireFresh hfresh'
        have hassigned := hassign.leaves.within hwithin
        have hreal' := open_of_requireFresh (hreal.unreserved hassigned.orderly) hfresh'
        have hname' := hopen.translates hwithin.orderly (hassign.trans hreal)
        have hdeclared :=
          leaves_declare_renamed hname' hreal' (hreal.leaves.within hassigned).owner_eq hmodule
            halias
        have hwords := (hname.trans hassign).trans hreal
        have hwrite := (gives_write_iff _ _).1 hwrite
        refine ⟨.renamed name real, ((hwords.leaves.trans hdeclared).trans hwrite.leaves).of_eq ?_,
          ?_⟩
        · simp [Trace.ext_iff, Import.trace, Import.spelling, Import.includeLine, Import.entries]
        · rw [hwrite.scope_eq, scope_of_declare halias, scope_of_declare hmodule, hwords.scope_eq]
      · cases hfalse
    · obtain ⟨-, rfl⟩ | ⟨-, rfl, -⟩ := hassign
      · cases hplain rfl
      · have himported : Scope.Owner.module.Declares .imported := trivial
        have hdeclared :=
          hname.leaves.trans (leaves_declare hopen (hwithin.owner_eq ▸ himported) hmodule)
        have hwrite := (gives_write_iff _ _).1 hwrite
        refine ⟨.module name, (hdeclared.trans hwrite.leaves).of_eq ?_, ?_⟩
        · simp [Trace.ext_iff, Import.trace, Import.spelling, Import.includeLine, Import.entries,
            Symbol.Kind.outline]
        · rw [hwrite.scope_eq, scope_of_declare hmodule, hname.scope_eq]
  · exact ⟨.empty, .refl _, rfl⟩

/-- An import list behind its keyword. -/
theorem leaves_of_importList
    {a : Unit}
    {u : State}
    (hs : s.Within module .module depth)
    (hword : s.Translates [.keyword .IMPORT] "" u)
    (h : importList.Gives depth u a t) :
    ∃ list : ImportList, s.Leaves (ImportList.trace [list]) t ∧ t.scope = s.scope := by
  unfold importList at h
  simp only [gives_bind, gives_discard, gives_expect_sign_iff] at h
  obtain ⟨_, v, ⟨items, hitems⟩, hsemicolon⟩ := h
  obtain ⟨first, others, -, hentries, hsteps⟩ :=
    leaves_of_stepping_items Import.trace (fun _ _ => True)
    (fun u _ w => w.scope = u.scope)
    (fun hv _ hentry => by
      obtain ⟨i, hi, hscope⟩ := leaves_of_importEntry hv hentry
      exact ⟨i, trivial, hi, hscope⟩)
    (fun hcomma => by
      have hcomma := translates_of_accept_sign hcomma
      exact ⟨hcomma.leaves, fun hscope => hscope.trans hcomma.scope_eq⟩)
    accept_false (hword.leaves.within hs) (items_of_gives hitems)
  have hscope := hsteps.keeps (f := State.scope) fun _ _ _ h => h
  refine ⟨⟨first, others⟩, ((hword.leaves.trans hentries).trans hsemicolon.leaves).of_eq ?_,
    hsemicolon.scope_eq.trans (hscope.trans hword.scope_eq)⟩
  rw [Trace.join_separated]
  simp [Trace.ext_iff, Import.trace, ImportList.trace, ImportList.spelling, ImportList.imports,
    behindSign]

theorem leaves_of_imports
    {a : Unit} (hs : s.Within module .module depth)
    (h : (repeatWhile (accept (.keyword .IMPORT)) importList).Gives depth s a t) :
    ∃ lists : List ImportList, s.Leaves (ImportList.trace lists) t ∧ t.scope = s.scope := by
  obtain ⟨lists, hlists, hsteps⟩ := leaves_of_rounds _ (fun u _ w => w.scope = u.scope)
    (fun hu hmore hbody => leaves_of_importList hu (translates_of_accept_keyword hmore) hbody)
      accept_false hs
    (rounds_of_gives h)
  exact ⟨lists, hlists.of_eq (ImportList.join_trace lists), hsteps.keeps fun _ _ _ h => h⟩

/-! ### Sections -/

/-- Where no declaration follows nothing is taken. -/
theorem eq_of_no_declarations (h : declarations.Gives depth s false t) : t = s := by
  unfold declarations at h
  simp only [gives_if_accept_keyword_iff] at h
  obtain ⟨u, -, h⟩ | ⟨-, ⟨u, -, h⟩ | ⟨-, ⟨u, -, h⟩ | ⟨-, h⟩⟩⟩ := h
  · simp at h
  · simp at h
  · simp at h
  · exact ((gives_pure _ _).1 h).2

theorem leaves_of_sections
    {a : Unit}
    {known : String → String → Prop}
    (hs : s.Within module .module depth)
    (hlegible : s.Legible)
    (hknown : s.KnowsOnly known)
    (h : (repeatWhile declarations (pure ())).Gives depth s a t) :
    ∃ sections : List Grammar.Section,
      t.scope = s.scope ∧
      Steps (fun c part d => Section.Checked module known c part d) s.context sections t.context ∧
      s.Leaves (Item.trace module (sections.flatMap Section.spelling)
        (sections.flatMap Section.types) (sections.flatMap (Section.items module))) t := by
  obtain ⟨-, sections, hsections, hsteps⟩ := leaves_of_keeping_rounds
    (fun part : Grammar.Section => Item.trace module part.spelling part.types (part.items module))
    (I := fun u => u.Legible ∧ u.KnowsOnly known)
    (fun u part w => w.scope = u.scope ∧ Section.Checked module known u.context part w.context)
    (fun {u v w} hu hkept hmore hbody => by
      obtain ⟨-, rfl⟩ := (gives_pure _ _).1 hbody
      obtain ⟨hlegible, hknown⟩ := hkept
      obtain ⟨part, hscope, hchecked, hpart⟩ := leaves_of_declarations hu hlegible hknown hmore
      have hkept :=
        hpart.knowsOnly hu.orderly hknown (by simpa using Item.no_module (part.items module))
      exact ⟨⟨(keeps_declarations.gives hlegible hmore).1, hkept⟩, part, hpart, hscope, hchecked⟩)
    eq_of_no_declarations hs ⟨hlegible, hknown⟩ (rounds_of_gives h)
  refine ⟨sections, hsteps.keeps fun _ _ _ h => h.1, hsteps.map State.context fun _ _ _ h => h.2,
    hsections.of_eq ?_⟩
  rw [← join_item_traces]

/-! ### Head, body and end -/

/-- The name of the module may be known from the start. -/
theorem State.Leaves.withName {trace : Trace} (h : s.Leaves trace t) (name : String) :
    State.Leaves { s with moduleName := name } trace { t with moduleName := name } := by
  have horderly : State.Orderly { s with moduleName := name } → s.Orderly := by
    rintro ⟨owner, outer, inner, hs⟩
    exact ⟨owner, outer, inner, hs.of_eq rfl rfl rfl⟩
  refine ⟨h.output, rfl, fun hs => h.reads (horderly hs), fun hs => ?_,
    fun hs => h.named (horderly hs)⟩
  obtain ⟨more, hmore, ht⟩ := h.inScope (hs.of_eq rfl rfl rfl)
  exact ⟨more, hmore, ht.of_eq rfl rfl rfl⟩

theorem leaves_of_moduleHead
    {a : Unit} (hs : s.Scoped .module reservedEntries []) (h : moduleHead.Gives depth s a t) :
    ∃ name, State.Leaves { s with moduleName := name }
      { words := [.keyword .MODULE, .identifier name, .sign .semicolon]
        published := Target.interfaceHead name, added := [(name, .thisModule)] } t ∧
          t.scope = s.scope := by
  unfold moduleHead at h
  simp only [gives_bind, gives_expect_keyword_iff, gives_identifier_iff, gives_discard,
    gives_nameModule, gives_expect_sign_iff] at h
  obtain ⟨_, s₁, hword, name, s₂, hname, _, s₃, ⟨_, hdeclare⟩, _, s₄, rfl, _, s₅, hsemicolon,
      hpublish⟩ :=
    h
  have hwords := hword.trans hname
  have hhead := hwords.leaves
  obtain ⟨more, hmore, hs₂⟩ := hhead.inScope hs
  obtain rfl : more = [] := List.map_eq_nil_iff.1 hmore
  -- The name of the module is the first one that is declared.
  have hopen : s₂.Open name := by
    refine ⟨hname.unreserved (hword.leaves.orderly ⟨_, _, _, hs⟩), fun hs' => ?_⟩
    obtain ⟨-, -, rfl⟩ := hs₂.unique hs'
    simp
  have hkind : Scope.Owner.module.Declares .thisModule := trivial
  have hdeclared := (hhead.trans (leaves_declare hopen (hs₂.owner ▸ hkind) hdeclare)).withName name
  refine ⟨name, ((hdeclared.trans hsemicolon.leaves).trans (leaves_publish hpublish)).of_eq ?_, ?_⟩
  · simp [Trace.ext_iff, Symbol.Kind.outline]
  · rw [(gives_publish _ _).1 hpublish]
    exact hsemicolon.scope_eq.trans ((scope_of_declare hdeclare).trans hwords.scope_eq)

theorem leaves_of_moduleBody
    {a : Unit}
    {known : String → String → Prop}
    (hs : s.Within module owner depth)
    (hlegible : s.Legible)
    (hknown : s.KnowsOnly known)
    (h : moduleBody.Gives depth s a t) :
    ∃ block : Option Block,
      (∀ b ∈ block.toList, b.around = s.context ∧ b.Checked module known s.scope.result) ∧
      s.Leaves {
        words := blockSpelling block
        code := Target.initializerHead module ++ blockText block ++ "\x7d\n" } t := by
  unfold moduleBody at h
  obtain ⟨_, s, hname, h⟩ := (gives_bind ..).1 h
  obtain ⟨rfl, rfl⟩ := (gives_moduleName _).1 hname
  obtain ⟨_, u, hhead, h⟩ := (gives_bind ..).1 h
  rw [gives_write_iff, hs.moduleName] at hhead
  obtain ⟨block, v, haround, hblock, h⟩ :=
    exists_block_of_gives (hhead.leaves.within hs) (hlegible.translates hhead)
    (hhead.leaves.knowsOnly hs.orderly hknown (by simp)) h
  have hwritten := (hhead.trans hblock).trans ((gives_write_iff _ _).1 h)
  rw [hhead.context_eq, hhead.scope_eq] at haround
  exact ⟨block, haround, hwritten.leaves.of_eq (by simp)⟩

theorem leaves_of_moduleEnd
    {a : Unit} (hs : s.Within module owner depth) (h : moduleEnd.Gives depth s a t) :
    s.Leaves {
      words := [.keyword .END, .identifier module, .sign .dot, .eof]
      published := Target.interfaceTail module } t := by
  unfold moduleEnd at h
  simp only [gives_bind, gives_moduleName, gives_expect_keyword_iff, gives_expect_sign_iff,
    gives_expect_eof_iff] at h
  obtain ⟨_, s₁, hword, _, s₂, ⟨rfl, rfl⟩, _, s₃, hname, _, s₄, hdot, _, s₅, heof, _, s₆,
      ⟨rfl, rfl⟩, hpublish⟩ :=
    h
  have hwords := ((hword.trans (translates_of_closingName hname)).trans hdot).trans heof
  have hmodule : s₂.moduleName = module := (hword.leaves.within hs).moduleName
  have hmodule' : s₆.moduleName = module := (hwords.leaves.within hs).moduleName
  refine (hwords.leaves.trans (leaves_publish hpublish)).of_eq ?_
  simp [Trace.ext_iff, hmodule, hmodule']

/-! ### Whole modules -/

/--
A run over a whole module leaves the texts and entries of a module of the grammar, which it checks
on its way.
-/
theorem leaves_of_wholeModule
    {header : String}
    {a : Unit}
    (hremaining : s.remaining < depth)
    (hs : s.Scoped .module reservedEntries [])
    (hlegible : s.Legible)
    (htypes : s.types = .builtin)
    (hresult : s.scope.result = .unknown)
    (h : (wholeModule header).Gives depth s a t) :
    ∃ m : Grammar.Module,
      m.Checked ∧
      State.Leaves { s with moduleName := m.name } {
        words := m.spelling, code := m.implementation header, published := m.interface
        added := m.entries, named := modulesNamed m.types } t := by
  unfold wholeModule at h
  simp only [gives_bind, gives_write_iff] at h
  obtain ⟨_, s₁, hhead, _, s₂, himports, _, s₃, hinclude, _, s₄, hblank, _, s₅, hsections, _, s₆,
      hbody, hend⟩ :=
    h
  have hfront :=
    (keeps_imports.gives (keeps_moduleHead.gives hlegible hhead).1 himports).1.translates
      (hinclude.trans hblank)
  have hdeclared := (keeps_sections.gives hfront hsections).1
  have hgrown := (kept_types.gives himports).trans (kept_types.gives hhead)
  have hreserved : s.symbols.outline = reservedEntries := hs.symbols.outline_eq
  obtain ⟨name, hhead, hscope⟩ := leaves_of_moduleHead hs hhead
  have hs : State.Within { s with moduleName := name } name .module depth :=
    ⟨rfl, hremaining, _, _, hs.of_eq rfl rfl rfl⟩
  obtain ⟨lists, himports, hscope'⟩ := leaves_of_imports (hhead.within hs) himports
  have htexts := hinclude.trans hblank
  have himported := (hhead.trans himports).trans htexts.leaves
  -- No module becomes known behind the imports.
  have hs₄ := himported.within hs
  have hknown : s₄.KnowsOnly (Calls s₄.symbols.outline) := fun _ _ h => h
  obtain ⟨sections, hscope'', hchecked, hsections⟩ := leaves_of_sections hs₄ hfront hknown hsections
  have hknown := hsections.knowsOnly hs₄.orderly hknown (by
    rw [Item.added_trace]
    exact Item.no_module _)
  obtain ⟨block, haround, hbody⟩ :=
    leaves_of_moduleBody (hsections.within hs₄) hdeclared hknown hbody
  have hlast := hsections.trans hbody
  have hbehind := hlast.trans (leaves_of_moduleEnd (hlast.within hs₄) hend)
  have houtline : s₄.symbols.outline = reservedEntries ++ (name, .thisModule) ::
        (lists.flatMap ImportList.imports).flatMap
      Import.entries := by
    rw [himported.outline_eq hs.orderly, show State.symbols { s with moduleName := name } =
      s.symbols from rfl, hreserved]
    simp [ImportList.trace]
  have hcalls : ∀ called real, Calls s₄.symbols.outline called real →
      (called, real) ∈ Module.modules ⟨name, lists, sections, block⟩ := by
    intro called real h
    refine Module.mem_modules_of_calls ?_
    rw [Module.entries, ← List.append_assoc]
    exact (houtline ▸ h).append_right _
  have hresult' : s₅.scope.result = .unknown := by
    rw [hscope'', htexts.scope_eq, hscope', hscope, hresult]
  refine ⟨⟨name, lists, sections, block⟩,
    ⟨s₄.context, s₅.context, ⟨hs₄.moduleName, ?_, ?_⟩, ?_, fun b hb => ?_⟩,
    (himported.trans hbehind).of_eq ?_⟩
  · rw [htexts.context_eq, ← htypes]
    exact hgrown
  · obtain ⟨_, _, hscoped⟩ := hs₄.inScope
    obtain ⟨entries, hlists, -⟩ := hscoped.symbols
    exact ⟨entries, hlists, hlists.outline_eq.symm.trans houtline⟩
  · exact hchecked.imp fun _ _ _ h => h.mono hcalls
  · obtain ⟨hb, hchecked⟩ := haround b hb
    exact ⟨hb, (hresult' ▸ hchecked).mono hcalls⟩
  simp [Trace.ext_iff, Module.spelling, Module.implementation, Module.interface, Module.entries,
    Module.items, Module.types, Module.allImports, ImportList.trace, Item.trace, Item.texts,
    String.append_assoc]

/--
The entries of a module that are marked exported are those of its exported variables and procedures.
-/
theorem exported_entries (m : Grammar.Module) :
    (reservedEntries ++ m.entries).filter (fun entry => entry.2.exported) =
      (m.items.filter fun item => item.linked && item.exported).map Item.entry := by
  have hreserved : reservedEntries.filter (fun entry => entry.2.exported) = [] := by
    simp [reservedEntries, Symbol.Kind.exported]
  have himports :
      (m.allImports.flatMap Import.entries).filter (fun entry => entry.2.exported) = [] := by
    rw [List.filter_eq_nil_iff]
    intro entry hentry
    obtain ⟨i, -, hi⟩ := List.mem_flatMap.1 hentry
    simp [Import.exported_eq_false hi]
  have hitems : (fun item : Item => item.entry.2.exported) =
      fun item => item.linked && item.exported :=
    funext Item.exported_entry
  rw [List.filter_append, hreserved, Module.entries, List.cons_append,
    List.filter_cons_of_neg (by simp [Symbol.Kind.exported]),
    List.filter_append, himports, List.filter_map]
  simp [Function.comp_def, hitems]

end Compilation

namespace Grammar

/--
The source spells the module; every module that a type names is the module itself or one of its
imports.
-/
structure Module.SpelledBy (m : Module) (source : String) : Prop where
  tokens : ∃ tokens, tokensOf source = .ok tokens ∧ tokens.map Token.word = m.spelling
  modules : ∀ named ∈ modulesNamed m.types, named ∈ m.modules

end Grammar

namespace Compilation

open Oberon.Grammar

/-- At the start there are the built-in types, and no procedure is open. -/
theorem context_of_start
    {source : String} {limits : Limits} (h : State.start source limits = .ok s) :
    s.types = .builtin ∧ s.scope.result = .unknown := by
  unfold State.start at h
  split at h
  · cases h
  · split at h
    · cases h
    · cases h
    · cases h
      exact ⟨rfl, rfl⟩

/-- What is compiled is the source of a checked module, into the texts and entries of the module. -/
theorem exists_checked_compiled
    {name source header : String}
    {limits : Limits}
    {units : Units}
    (h : compile name source header limits = .ok units) :
    ∃ (m : Grammar.Module) (start final : State),
      m.SpelledBy source ∧
      State.start source limits = .ok start ∧
      (wholeModule header).perform start = .ok () final ∧
      units = ⟨m.implementation header, m.interface⟩ ∧
      final.symbols.outline = reservedEntries ++ m.entries ∧
      m.Checked := by
  unfold compile at h
  split at h
  · cases h
  · rename_i s hstart
    split at h
    · rename_i t hperform
      cases h
      obtain ⟨hscoped, houtput, hnext⟩ := start_spec hstart
      obtain ⟨htypes, hresult⟩ := context_of_start hstart
      obtain ⟨m, hchecked, hm⟩ :=
        leaves_of_wholeModule (Nat.lt_succ_self _) hscoped (.of_start hstart) htypes hresult
          hperform
      have horderly : State.Orderly { s with moduleName := m.name } :=
        ⟨_, _, _, hscoped.of_eq rfl rfl rfl⟩
      have houtline : t.symbols.outline = reservedEntries ++ m.entries := by
        rw [hm.outline_eq horderly, hscoped.symbols.outline_eq]
        rfl
      have hmodules : ∀ called real, Calls t.symbols.outline called real →
          (called, real) ∈ m.modules := by
        intro called real hcalls
        rw [houtline] at hcalls
        exact Module.mem_modules_of_calls hcalls
      refine ⟨m, s, t, ⟨?_, fun named hnamed => hmodules _ _ (hm.named horderly named hnamed)⟩,
        hstart, hperform, ?_, houtline,
        hchecked⟩
      · have hreads := hm.reads horderly
        obtain ⟨front, hfront⟩ := m.exists_spelling_eq
        simp only [hfront] at hreads ⊢
        exact hreads.exists_tokens hnext (by simp [Word.sign])
      · simp [hm.output, houtput, Output.write, Output.publish]
    · cases h

/--
What is compiled is the source of a module, into the texts and entries of the module.  Its blocks
are legible, and refer to the modules that it knows.
-/
theorem exists_referring_compiled
    {name source header : String}
    {limits : Limits}
    {units : Units}
    (h : compile name source header limits = .ok units) :
    ∃ (m : Grammar.Module) (start final : State),
      m.SpelledBy source ∧
      State.start source limits = .ok start ∧
      (wholeModule header).perform start = .ok () final ∧
      units = ⟨m.implementation header, m.interface⟩ ∧
      final.symbols.outline = reservedEntries ++ m.entries ∧
      ∀ b ∈ m.blocks,
        b.around.Legible ∧
        b.around.RefersOnly m.name fun called real => (called, real) ∈ m.modules := by
  obtain ⟨m, start, final, hspelled, hstart, hperform, hunits, houtline, hchecked⟩ :=
    exists_checked_compiled h
  exact ⟨m, start, final, hspelled, hstart, hperform, hunits, houtline, hchecked.blocks⟩

/--
What is compiled is the source of a module, into the texts and entries of the module; its blocks are
legible.
-/
theorem exists_legible_compiled
    {name source header : String}
    {limits : Limits}
    {units : Units}
    (h : compile name source header limits = .ok units) :
    ∃ (m : Grammar.Module) (start final : State),
      m.SpelledBy source ∧
      State.start source limits = .ok start ∧
      (wholeModule header).perform start = .ok () final ∧
      units = ⟨m.implementation header, m.interface⟩ ∧
      final.symbols.outline = reservedEntries ++ m.entries ∧
      ∀ b ∈ m.blocks, b.around.Legible := by
  obtain ⟨m, start, final, hspelled, hstart, hperform, hunits, houtline, haround⟩ :=
    exists_referring_compiled h
  exact ⟨m, start, final, hspelled, hstart, hperform, hunits, houtline,
    fun b hb => (haround b hb).1⟩

/-- What is compiled is the source of a module, into the texts and entries of the module. -/
theorem exists_compiled
    {name source header : String}
    {limits : Limits}
    {units : Units}
    (h : compile name source header limits = .ok units) :
    ∃ (m : Grammar.Module) (start final : State),
      m.SpelledBy source ∧
      State.start source limits = .ok start ∧
      (wholeModule header).perform start = .ok () final ∧
      units = ⟨m.implementation header, m.interface⟩ ∧
      final.symbols.outline = reservedEntries ++ m.entries := by
  obtain ⟨m, start, final, hspelled, hstart, hperform, hunits, houtline, -⟩ :=
    exists_legible_compiled h
  exact ⟨m, start, final, hspelled, hstart, hperform, hunits, houtline⟩

/-- What stands in the table behind the reserved words is declared by the module. -/
theorem exists_declared_of_perform
    {source header : String}
    {limits : Limits}
    {start final : State}
    {entries : List (String × Symbol.Kind)}
    (hstart : State.start source limits = .ok start)
    (hperform : (wholeModule header).perform start = .ok () final)
    (houtline : final.symbols.outline = reservedEntries ++ entries) :
    ∃ inner, Declared .module inner ∧ inner.map outlined = entries := by
  obtain ⟨inner, hfinal⟩ :=
    (@honors_wholeModule reservedEntries (start.remaining + 1) header).gives (start_spec hstart).1
      hperform
  have hshown := hfinal.symbols.outline_eq
  rw [houtline, List.map_append] at hshown
  exact ⟨inner, hfinal.declared, (List.append_cancel_left hshown).symm⟩

end Compilation

open Grammar in
/--
A compiled module is a module of the grammar whose interface has, between its head and its tail, one
line for each exported item in the order of declaration.  Its implementation defines every variable
and procedure by the same text, `static` if the item is not exported.  The exported variables and
procedures are the entries that are marked exported at the end.
-/
theorem exists_module_of_compile_eq_ok
    {name source header : String} {limits : Limits} {units : Units}
    (h : compile name source header limits = .ok units) :
    ∃ (m : Module) (start final : Compilation.State), m.SpelledBy source ∧
      Compilation.State.start source limits = .ok start ∧
      (Compilation.wholeModule header).perform start = .ok () final ∧
      units = ⟨m.implementation header, m.interface⟩ ∧
      final.symbols.outline = reservedEntries ++ m.entries ∧
      final.symbols.outline.filter (fun entry => entry.2.exported) =
        (m.items.filter fun item => item.linked && item.exported).map Item.entry := by
  obtain ⟨m, start, final, hspelled, hstart, hperform, hunits, houtline⟩ :=
    Compilation.exists_compiled h
  refine ⟨m, start, final, hspelled, hstart, hperform, hunits, houtline, ?_⟩
  rw [houtline, Compilation.exported_entries]

open Grammar in
/-- A module with an exported variable is compiled. -/
theorem exists_module_of_exportedVariable :
    ∃ (units : Units) (m : Module),
      compile "M.Mod" "MODULE M;VAR a*:CHAR;END M." "M.h" {} = .ok units ∧
      m.SpelledBy "MODULE M;VAR a*:CHAR;END M." ∧
      units = ⟨m.implementation "M.h", m.interface⟩ := by
  have hchecked :
      (compile "M.Mod" "MODULE M;VAR a*:CHAR;END M." "M.h" {}).toOption.isSome = true := by
    decide +kernel
  obtain ⟨units, hunits⟩ := Option.isSome_iff_exists.1 hchecked
  rw [toOption_eq_some_iff] at hunits
  obtain ⟨m, start, final, hspelled, -, -, htexts, -⟩ := exists_module_of_compile_eq_ok hunits
  exact ⟨units, m, hunits, hspelled, htexts⟩

end Oberon
