import Oberon.Proofs.Target.LegibleState
import Oberon.Proofs.Translation.Entries

/-!
# The translation of declarations
-/

namespace Oberon
namespace Compilation

open Oberon.Grammar
open Oberon.Compilation.Action

variable {depth : Nat} {s t : State}

/-! ### Types -/

/-- A member of the module that the current name stands for. -/
theorem leaves_of_memberOf
    {index target : Nat}
    {symbol : Symbol}
    {text : String}
    (hkind : s.token.kind = .identifier)
    (hfind : s.symbols.find s.token.lexeme = .ok (some index))
    (hresolve : s.symbols.resolve index = .ok target)
    (hsymbol : s.symbols.get target = .ok symbol)
    (hmodule : symbol.kind = .imported ∨ symbol.kind = .thisModule)
    (h : (memberOf target).Gives depth s text t) :
    ∃ q : Qualified, s.Leaves { words := q.spelling, named := [q.named] } t ∧ text = q.text := by
  unfold memberOf at h
  simp only [gives_bind, gives_nameOf, gives_take, gives_expect_sign_iff, gives_identifier_iff,
    gives_pure] at h
  obtain ⟨owner, s, ⟨howner, rfl⟩, _, u, htake, _, v, hdot, name, _, hname, rfl, rfl⟩ := h
  have hfirst : s.Translates [.identifier s.token.lexeme] "" u :=
    (State.translates_take_iff ..).2 ⟨by simp [hkind], htake⟩
  have hcalls : s.Leaves { named := [(s.token.lexeme, owner)] } s := by
    refine .naming fun hs => ?_
    obtain ⟨_, _, _, hs⟩ := hs
    exact hs.calls hfind hresolve hsymbol hmodule howner
  refine ⟨⟨s.token.lexeme, owner, name⟩,
    (hcalls.trans ((hfirst.trans hdot).trans hname).leaves).of_eq ?_, rfl⟩
  simp [Trace.ext_iff, Qualified.spelling, Qualified.named]

theorem leaves_of_basicType {d : Declarator} (h : basicType.Gives depth s d t) :
    ∃ type : BasicType,
      s.Leaves { words := type.spelling, named := type.members.map Qualified.named } t ∧
      d.left = type.text ∧
      d.right = "" ∧
      d.type = type.type := by
  unfold basicType at h
  rw [gives_kind_bind] at h
  split at h
  · rename_i word hkind
    split at h
    · rename_i text htext
      simp only [gives_bind, gives_take_keyword_iff hkind, gives_pure] at h
      obtain ⟨_, u, htake, rfl, rfl⟩ := h
      exact ⟨.builtin ⟨word, by simp [htext]⟩, htake.leaves, by simp [BasicType.text, htext], rfl,
        rfl⟩
    · simp [gives_bind] at h
  · rename_i hkind
    simp only [gives_bind, gives_look, gives_find] at h
    obtain ⟨_, s, ⟨rfl, rfl⟩, found, s, ⟨hfind, rfl⟩, h⟩ := h
    split at h
    · simp only [gives_bind, gives_take, gives_pure] at h
      obtain ⟨_, u, htake, rfl, rfl⟩ := h
      have htranslates : s.Translates [.identifier s.token.lexeme] "" t :=
        (State.translates_take_iff ..).2 ⟨by simp [hkind], htake⟩
      exact ⟨.undeclared s.token.lexeme, htranslates.leaves, rfl, rfl, rfl⟩
    · rename_i index
      simp only [gives_bind, gives_resolve, gives_symbol] at h
      obtain ⟨target, s, ⟨hresolve, rfl⟩, symbol, s, ⟨hsymbol, rfl⟩, h⟩ := h
      split at h
      case h_1 | h_2 =>
        rename_i hmodule
        simp only [gives_bind, gives_pure] at h
        obtain ⟨text, _, htext, rfl, rfl⟩ := h
        obtain ⟨q, hq, rfl⟩ :=
          leaves_of_memberOf hkind hfind hresolve hsymbol (by simp [hmodule]) htext
        exact ⟨.member q, hq, rfl, rfl, rfl⟩
      case h_3 => simp at h
  · simp [gives_bind] at h

theorem leaves_of_arraySize {found : String × Nat} (h : arraySize.Gives depth s found t) :
    ∃ size : ArraySize,
      s.Leaves { words := size.spelling, named := size.members.map Qualified.named } t ∧
      found.1 = size.text s.moduleName ∧
      found.2 = size.length := by
  unfold arraySize at h
  rw [gives_kind_bind] at h
  split at h
  · rename_i hkind
    simp only [gives_bind, gives_lexeme, gives_pure] at h
    obtain ⟨lexeme, u, ⟨rfl, htake⟩, rfl, rfl⟩ := h
    have htranslates : s.Translates [(.number .integer, s.token.lexeme)] "" t :=
      (State.translates_take_iff ..).2 ⟨(s.token.word_eq_iff_of_open rfl _).2 ⟨hkind, rfl⟩, htake⟩
    exact ⟨.literal s.token.lexeme, htranslates.leaves, rfl, rfl⟩
  · rename_i hkind
    simp only [gives_bind, gives_look, gives_find] at h
    obtain ⟨_, s, ⟨rfl, rfl⟩, name, s, ⟨hfind, rfl⟩, h⟩ := h
    split at h
    · rename_i index
      simp only [gives_bind, gives_resolve, gives_symbol] at h
      obtain ⟨target, s, ⟨hresolve, rfl⟩, symbol, s, ⟨hsymbol, rfl⟩, h⟩ := h
      split at h
      case h_1 | h_2 =>
        rename_i hmodule
        simp only [gives_bind, gives_pure] at h
        obtain ⟨text, _, htext, rfl, rfl⟩ := h
        obtain ⟨q, hq, rfl⟩ :=
          leaves_of_memberOf hkind hfind hresolve hsymbol (by simp [hmodule]) htext
        exact ⟨.member q, hq, rfl, rfl⟩
      case h_3 =>
        simp only [gives_bind, gives_take, gives_moduleName, gives_pure] at h
        obtain ⟨_, u, htake, _, _, ⟨rfl, rfl⟩, rfl, rfl⟩ := h
        have htranslates : s.Translates [.identifier s.token.lexeme] "" t :=
          (State.translates_take_iff ..).2 ⟨by simp [hkind], htake⟩
        refine ⟨.constant s.token.lexeme, htranslates.leaves, ?_, rfl⟩
        rw [ArraySize.text, htranslates.leaves.moduleName]
      case h_4 => simp at h
    · simp at h
  · simp at h

/-- A type that is added has the shape that it is added with. -/
theorem shape_of_addType
    {shape : Shape} {type : DataType} (h : (addType shape).Gives depth s type t) :
    t.types.shapes[type.number]? = some shape := by
  obtain ⟨rfl, rfl⟩ := (gives_addType shape type).1 h
  exact TypeCatalog.getElem?_add s.types shape

theorem leaves_of_elementDeclarator
    {d : Declarator} (h : elementDeclarator.Gives depth s d t) :
    ∃ type : ElementType,
      s.Leaves { words := type.spelling, named := type.members.map Qualified.named } t ∧
      d.left = type.left ∧
      d.right = type.right ∧
      type.Denotes t.types d.type := by
  unfold elementDeclarator at h
  simp only [gives_if_accept_keyword_iff] at h
  obtain ⟨u, hpointer, ⟨v, hto, h⟩ | ⟨-, h⟩⟩ | ⟨-, ⟨u, hprocedure, h⟩ | ⟨-, h⟩⟩ := h
  · simp only [gives_bind, gives_pure] at h
    obtain ⟨base, w, hbase, type, x, htype, rfl, rfl⟩ := h
    obtain ⟨found, hfound, hleft, -, hbase⟩ := leaves_of_basicType hbase
    have hshape := shape_of_addType htype
    rw [hbase] at hshape
    refine ⟨.pointer (some found), ?_, by simp [ElementType.left, hleft], rfl, hshape⟩
    refine ((hpointer.trans hto).leaves.trans hfound).trans (leaves_addType htype) |>.of_eq ?_
    simp [Trace.ext_iff, ElementType.spelling, ElementType.members]
  · simp only [gives_bind, gives_pure] at h
    obtain ⟨type, w, htype, rfl, rfl⟩ := h
    refine ⟨.pointer none, (hpointer.leaves.trans (leaves_addType htype)).of_eq ?_, rfl, rfl,
      shape_of_addType htype⟩
    simp [Trace.ext_iff, ElementType.spelling, ElementType.members]
  · rw [gives_pure] at h
    obtain ⟨rfl, rfl⟩ := h
    exact ⟨.procedure, hprocedure.leaves, rfl, rfl, rfl⟩
  · obtain ⟨found, hfound, hleft, hright, htype⟩ := leaves_of_basicType h
    exact ⟨.basic found, hfound, hleft, hright, htype⟩

theorem leaves_of_declaredType {d : Declarator} (h : declaredType.Gives depth s d t) :
    ∃ type : TypeExpression, s.Leaves { words := type.spelling, named := modulesNamed [type] } t ∧
      d.left = type.left ∧ d.right = type.right s.moduleName ∧ type.Denotes t.types d.type := by
  unfold declaredType at h
  rw [gives_if_accept_keyword_iff] at h
  obtain ⟨u, harray, h⟩ | ⟨-, h⟩ := h
  · simp only [gives_bind, gives_expect_keyword_iff, gives_sees, gives_ite, gives_pure] at h
    obtain ⟨⟨text, length⟩, v, hread, _, w, hof, nested, w, ⟨-, rfl⟩, ⟨-, _, x, h, -⟩ | ⟨-, h⟩⟩ := h
    · exact absurd h (gives_reject _ _)
    · obtain ⟨element, x, helement, type, _, htype, rfl, rfl⟩ := h
      obtain ⟨size, hsize, rfl, rfl⟩ := leaves_of_arraySize hread
      obtain ⟨elements, helements, hleft, hright, hdenotes⟩ := leaves_of_elementDeclarator helement
      refine ⟨.array size elements, ?_, hleft, ?_,
        element.type, hdenotes.mono (kept_types.gives htype), shape_of_addType htype⟩
      · refine (((harray.leaves.trans hsize).trans hof.leaves).trans helements).trans
          (leaves_addType htype) |>.of_eq ?_
        simp [Trace.ext_iff, TypeExpression.spelling, modulesNamed, TypeExpression.members]
      · simp [TypeExpression.right, hright, harray.leaves.moduleName]
  · obtain ⟨found, hfound, hleft, hright, hdenotes⟩ := leaves_of_elementDeclarator h
    refine ⟨.plain found, hfound.of_eq ?_, hleft, hright, hdenotes⟩
    simp [TypeExpression.spelling, modulesNamed, TypeExpression.members]

/-! ### Constants -/

theorem translates_of_lexeme
    (kind : LiteralKind)
    {lexeme : String}
    (hkind : s.token.kind = kind.tokenKind)
    (h : Action.lexeme.Gives depth s lexeme t) :
    s.Translates [(⟨kind, lexeme⟩ : Literal).word] "" t := by
  obtain ⟨rfl, htake⟩ := (gives_lexeme lexeme).1 h
  refine (State.translates_take_iff ..).2 ⟨?_, htake⟩
  exact (s.token.word_eq_iff_of_open (by cases kind <;> rfl) _).2 ⟨hkind, rfl⟩

theorem translates_of_constantValue
    {value : String × DataType} (h : constantValue.Gives depth s value t) :
    ∃ found : ConstantValue,
      s.Translates found.spelling "" t ∧
      value.1 = found.text ∧
      value.2 = found.literal.kind.type := by
  unfold constantValue at h
  rw [gives_bind] at h
  obtain ⟨negated, u, hnegated, h⟩ := h
  rw [gives_kind_bind] at h
  have hsign : s.Translates (if negated then [.sign .minus] else []) "" u := by
    obtain ⟨htaken, rfl⟩ | ⟨-, rfl, rfl⟩ := (gives_accept_sign_iff _ _).1 hnegated
    · exact htaken
    · exact .refl u
  have hplain : ∀ kind : LiteralKind, u.token.kind = kind.tokenKind →
      Gives depth
        (do if negated then reject .constantExpected else return (← lexeme, kind.type)) u value t →
      ∃ found : ConstantValue,
        s.Translates found.spelling "" t ∧
        value.1 = found.text ∧
        value.2 = found.literal.kind.type := by
    intro kind hkind h
    cases negated with
    | true => simp at h
    | false =>
      simp only [Bool.false_eq_true, if_false, gives_bind, gives_pure] at h
      obtain ⟨lexeme, _, hlexeme, rfl, rfl⟩ := h
      exact ⟨⟨false, ⟨kind, lexeme⟩, by simp⟩,
        hsign.trans (translates_of_lexeme kind hkind hlexeme), rfl, rfl⟩
  split at h
  · rename_i hkind
    simp only [gives_bind, gives_pure] at h
    obtain ⟨lexeme, _, hlexeme, rfl, rfl⟩ := h
    exact ⟨⟨negated, ⟨.number .integer, lexeme⟩, fun _ => Or.inl rfl⟩,
      hsign.trans (translates_of_lexeme (.number .integer) hkind hlexeme), rfl, rfl⟩
  · rename_i hkind
    simp only [gives_bind, gives_pure] at h
    obtain ⟨lexeme, _, hlexeme, rfl, rfl⟩ := h
    exact ⟨⟨negated, ⟨.number .real, lexeme⟩, fun _ => Or.inr rfl⟩,
      hsign.trans (translates_of_lexeme (.number .real) hkind hlexeme), rfl, rfl⟩
  · rename_i numeral _ _ hkind
    exact hplain (.number numeral) hkind h
  · rename_i hkind
    exact hplain .char hkind h
  · rename_i hkind
    exact hplain .string hkind h
  · simp at h

theorem leaves_of_constantDeclaration
    {a : Unit}
    {module : String}
    (hs : s.Within module .module depth)
    (h : constantDeclaration.Gives depth s a t) :
    ∃ c : Constant,
      s.Leaves (Item.trace module c.spelling [] [.constant c]) t ∧ s.Binds [.constant c] t := by
  have htypes := kept_types.gives h
  unfold constantDeclaration at h
  simp only [gives_bind, gives_discard, gives_expect_sign_iff, gives_moduleName] at h
  obtain ⟨name, s₁, hname, exported, s₂, hmark, _, s₃, hequal, ⟨text, type⟩, s₄, hgives, _, s₅,
    hsemicolon, _, s₆, hfresh, _, s₇, ⟨_, hdeclare⟩, _, s₈, ⟨rfl, rfl⟩, h⟩ := h
  obtain rfl := eq_of_requireFresh hfresh
  obtain ⟨value, hvalue, rfl, rfl⟩ := translates_of_constantValue hgives
  have hwords := (((translates_of_marked hname hmark).trans hequal).trans hvalue).trans hsemicolon
  have hopen := open_of_requireFresh (hwords.unreserved hs.orderly) hfresh
  have hconstant : Scope.Owner.module.Declares .constant := trivial
  have hdeclared :=
    hwords.leaves.trans (leaves_declare hopen ((hwords.leaves.within hs).owner_eq ▸ hconstant)
      hdeclare)
  have hleaves : s.Leaves
      (Item.trace module (Constant.spelling ⟨⟨name, exported⟩, value⟩) []
        [.constant ⟨⟨name, exported⟩, value⟩]) t := by
    have hmodule := (hdeclared.within hs).moduleName
    cases exported with
    | true =>
      refine (hdeclared.trans (leaves_publish h)).of_eq ?_
      simp [Item.trace, Item.texts_singleton, Trace.ext_iff, Constant.spelling, Item.definition,
        Item.exported, Item.name, Item.interfaceLine, Item.entry, Symbol.Kind.outline, modulesNamed,
        Constant.line, hmodule]
    | false =>
      refine (hdeclared.trans ((gives_write_iff _ _).1 h).leaves).of_eq ?_
      simp [Item.trace, Item.texts_singleton, Trace.ext_iff, Constant.spelling, Item.definition,
        Item.exported, Item.name, Item.entry, Symbol.Kind.outline, modulesNamed, Constant.line,
        hmodule]
  exact ⟨⟨⟨name, exported⟩, value⟩, hleaves,
    binds_of_constant hwords hdeclare h htypes hleaves.moduleName⟩

theorem sees_false
    {kind : Token.Kind}
    {u v : State}
    {seen : Bool}
    (h : (sees kind).Gives depth u seen v) :
    v = u :=
  ((gives_sees kind seen).1 h).2

theorem accept_false
    {kind : Token.Kind} {u v : State} (h : (accept kind).Gives depth u false v) :
    v = u := by
  obtain ⟨-, -, hfalse⟩ | ⟨-, rfl, -⟩ := (gives_accept kind false).1 h
  · cases hfalse
  · rfl

theorem join_item_traces
    {ι : Type}
    (module : String)
    (spelling : ι → List Word)
    (types : ι → List TypeExpression)
    (items : ι → List Item)
    (xs : List ι) :
    Trace.join (xs.map fun x => Item.trace module (spelling x) (types x) (items x)) =
      Item.trace module (xs.flatMap spelling) (xs.flatMap types) (xs.flatMap items) := by
  induction xs with
  | nil => rfl
  | cons x xs ih => simp [ih, Item.trace_append]

/-- Rounds that each declare some items. -/
theorem leaves_items_of_rounds
    {ι : Type}
    {more : Action Bool}
    {body : Action Unit}
    {module : String}
    {owner : Scope.Owner}
    (spelling : ι → List Word)
    (types : ι → List TypeExpression)
    (items : ι → List Item)
    (bindings : ι → List Binding)
    (hround : ∀ {u v w : State}, u.Within module owner depth → more.Gives depth u true v →
      body.Gives depth v () w →
      ∃ x, u.Leaves (Item.trace module (spelling x) (types x) (items x)) w ∧ u.Binds (bindings x) w)
    (hlast : ∀ {u v : State}, more.Gives depth u false v → v = u)
    (hs : s.Within module owner depth)
    (h : Rounds depth more body s t) :
    ∃ xs : List ι,
      s.Leaves (Item.trace module (xs.flatMap spelling) (xs.flatMap types) (xs.flatMap items)) t ∧
      s.Binds (xs.flatMap bindings) t := by
  obtain ⟨xs, hxs, hbinds⟩ := leaves_of_rounds _ _ hround hlast hs h
  exact ⟨xs, hxs.of_eq (join_item_traces module spelling types items xs), .of_steps hbinds⟩

theorem leaves_of_constantDeclarations
    {a : Unit}
    {module : String}
    (hs : s.Within module .module depth)
    (h : constantDeclarations.Gives depth s a t) :
    ∃ list : List Constant,
      s.Leaves (Item.trace module (list.flatMap Constant.spelling) [] (list.map .constant)) t ∧
      s.Binds (list.map .constant) t := by
  obtain ⟨list, hlist, hbinds⟩ :=
    leaves_items_of_rounds Constant.spelling (fun _ => []) (fun c => [.constant c])
    (fun c => [.constant c])
    (fun {u v w} hu hmore hbody => by
      obtain rfl := sees_false hmore
      exact leaves_of_constantDeclaration hu hbody) sees_false hs (rounds_of_gives h)
  refine ⟨list, hlist.of_eq ?_, by rwa [List.map_eq_flatMap]⟩
  rw [← List.map_eq_flatMap, List.flatMap_eq_nil_iff.2 fun _ _ => rfl]

/-! ### Variables -/

/-- A name in a list of names, as the grammar has it. -/
def Named.marked (v : Named) : Marked := ⟨v.name, v.exported⟩

theorem leaves_of_variableName
    {module : String}
    {owner : Scope.Owner}
    {v : Named}
    (hs : s.Within module owner depth)
    (h : variableName.Gives depth s v t) :
    s.Leaves { words := v.marked.spelling, added := [(v.name, .variable v.exported)] } t := by
  unfold variableName at h
  simp only [gives_bind, gives_scope, gives_ite, gives_pure] at h
  obtain ⟨name, s₁, hname, exported, s₂, hmark, _, s₃, ⟨rfl, rfl⟩, ⟨-, _, _, h, -⟩ |
    ⟨hlocal, _, s₄, hfresh, index, s₅, hdeclare, rfl, rfl⟩⟩ := h
  · exact absurd h (gives_reject _ _)
  · obtain rfl := eq_of_requireFresh hfresh
    have hmarked := translates_of_marked hname hmark
    have hopen := open_of_requireFresh (hmarked.unreserved hs.orderly) hfresh
    have hkind : s₄.scope.owner.Declares (.variable exported) := by
      cases howner : s₄.scope.owner with
      | module => trivial
      | procedure => simpa [howner, Scope.Owner.Declares] using hlocal
    refine (hmarked.leaves.trans (leaves_declare hopen hkind hdeclare)).of_eq ?_
    simp [Trace.ext_iff, Named.marked, Symbol.Kind.outline]

theorem leaves_of_variableOf
    {module : String}
    {type : TypeExpression}
    {d : Declarator}
    {v : Named}
    {a : Unit}
    (hs : s.Within module .module depth)
    (hd : ∀ name, d.around module name = type.declarator module name)
    (h : (variableOf d v).Gives depth s a t) :
    s.Leaves (Item.texts module [.variable v.marked type]) t := by
  unfold variableOf at h
  simp only [gives_bind, gives_moduleName, gives_scope] at h
  obtain ⟨_, s₁, htype, _, s₂, ⟨rfl, rfl⟩, _, s₃, ⟨rfl, rfl⟩, h⟩ := h
  have hleaves := leaves_setType htype
  have hwithin := hleaves.within hs
  rw [hwithin.owner_eq, hwithin.moduleName, hd] at h
  cases hexported : v.exported with
  | true =>
    simp only [hexported, gives_bind, gives_write_iff] at h
    obtain ⟨_, s₄, hwrite, hpublish⟩ := h
    refine ((hleaves.trans hwrite.leaves).trans (leaves_publish hpublish)).of_eq ?_
    simp [Item.texts_singleton, Trace.ext_iff, Named.marked, hexported, Item.definition,
      Item.linkage, Item.exported, Item.name, Item.interfaceLine]
  | false =>
    simp only [hexported, gives_write_iff] at h
    refine (hleaves.trans h.leaves).of_eq ?_
    simp [Item.texts_singleton, Trace.ext_iff, Named.marked, hexported, Item.definition,
      Item.linkage, Item.exported, Item.name]

theorem leaves_of_variableOf_local
    {module : String}
    {type : TypeExpression}
    {d : Declarator}
    {v : Named}
    {a : Unit}
    (hs : s.Within module .procedure depth)
    (hd : ∀ name, d.around module name = type.declarator module name)
    (h : (variableOf d v).Gives depth s a t) :
    s.Leaves { code := type.declarator module v.name ++ ";\n" } t := by
  unfold variableOf at h
  simp only [gives_bind, gives_moduleName, gives_scope] at h
  obtain ⟨_, s₁, htype, _, s₂, ⟨rfl, rfl⟩, _, s₃, ⟨rfl, rfl⟩, h⟩ := h
  have hleaves := leaves_setType htype
  have hwithin := hleaves.within hs
  rw [hwithin.owner_eq, hwithin.moduleName, hd] at h
  simp only [gives_write_iff] at h
  exact (hleaves.trans h.leaves).of_eq (by simp [Trace.ext_iff])

section Groups

variable {module : String} {owner : Scope.Owner}

theorem translates_of_accept_sign
    {sign : Sign} {u v : State} (h : (accept (.sign sign)).Gives depth u true v) :
    u.Translates [.sign sign] "" v := by
  obtain ⟨htaken, -⟩ | ⟨-, -, hfalse⟩ := (gives_accept_sign_iff _ _).1 h
  · exact htaken
  · cases hfalse

theorem translates_of_accept_keyword
    {word : Keyword} {u v : State} (h : (accept (.keyword word)).Gives depth u true v) :
    u.Translates [.keyword word] "" v := by
  obtain ⟨htaken, -⟩ | ⟨-, -, hfalse⟩ := (gives_accept_keyword_iff _ _).1 h
  · exact htaken
  · cases hfalse

theorem leaves_of_variableNames
    {names : List Named} (hs : s.Within module owner depth)
    (h : (separated variableName (accept (.sign .comma))).Gives depth s names t) :
    ∃ (first : Marked) (others : List Marked), names.map Named.marked = first :: others ∧
      s.Leaves {
        words := first.spelling ++ behindSign .comma Marked.spelling others
        added := (first :: others).map fun v => (v.name, .variable v.exported) } t := by
  obtain ⟨first, others, hnames, hleaves⟩ := leaves_of_items
    (fun x : Marked => { words := x.spelling, added := [(x.name, .variable x.exported)] })
    (fun v x => v.marked = x)
    (fun hu hname => ⟨_, rfl, leaves_of_variableName hu hname⟩)
    (fun hcomma => (translates_of_accept_sign hcomma).leaves)
    accept_false hs (items_of_gives h)
  refine ⟨first, others, ?_, hleaves.of_eq ?_⟩
  · rwa [← List.forall₂_eq_eq_eq, List.forall₂_map_left_iff]
  · rw [Trace.join_separated]
    simp [Trace.ext_iff, behindSign, ← List.map_eq_flatMap]

/-- A declaration of variables reads a group, whose names are then given their type and written. -/
theorem exists_group_of_variableDeclaration
    {a : Unit}
    (hs : s.Within module owner depth)
    (h : variableDeclaration.Gives depth s a t) :
    ∃ (g : VariableGroup) (names : List Named) (d : Declarator) (u : State),
      s.Leaves
        { words := g.spelling, added := g.items.map Item.entry, named := modulesNamed [g.type] } u ∧
      names.map Named.marked = g.names ∧
      (∀ name, d.around module name = g.type.declarator module name) ∧
      (names.forM (variableOf d)).Gives depth u a t ∧
      (t.moduleName = s.moduleName → s.Binds g.bindings t) := by
  have htypes := kept_types.gives h
  unfold variableDeclaration at h
  simp only [gives_bind, gives_expect_sign_iff] at h
  obtain ⟨names, s₁, hnames, _, s₂, hcolon, d, s₃, htype, _, s₄, hsemicolon, hwrite⟩ := h
  have hentered :=
    State.Enters.of_items enters_of_variableName enters_of_separator (items_of_gives hnames)
  have hkept := htype.steady
  obtain ⟨first, others, hmarked, hnames⟩ := leaves_of_variableNames hs hnames
  obtain ⟨type, htype, hleft, hright, hdenotes⟩ := leaves_of_declaredType htype
  rw [((hnames.trans hcolon.leaves).within hs).moduleName] at hright
  have hgrown := (kept_types.gives hwrite).trans hsemicolon.binds.context.types
  refine ⟨⟨first, others, type⟩, names, d, s₄, ?_, hmarked, fun name => ?_, hwrite,
    fun hmodule => ?_⟩
  · refine (((hnames.trans hcolon.leaves).trans htype).trans hsemicolon.leaves).of_eq ?_
    simp [Trace.ext_iff, VariableGroup.spelling, VariableGroup.items, VariableGroup.names,
      Item.entry]
  · rw [Declarator.around, TypeExpression.declarator, hleft, hright]
  · refine binds_of_names d.type hentered ?_ ((steps_of_forM hwrite).imp
      fun _ _ _ => typing_of_variableOf) hmodule htypes ?_
    · exact ⟨hsemicolon.symbols_eq.trans (hkept.1.trans hcolon.symbols_eq),
        hsemicolon.scope_eq.trans (hkept.2.trans hcolon.scope_eq)⟩
    · rw [VariableGroup.bindings, VariableGroup.names, ← hmarked, List.map_map,
        List.forall₂_map_left_iff, List.forall₂_map_right_iff, List.forall₂_same]
      exact fun _ _ => ⟨rfl, rfl, hdenotes.mono hgrown⟩

theorem leaves_of_variableDeclaration
    {a : Unit}
    (hs : s.Within module .module depth)
    (h : variableDeclaration.Gives depth s a t) :
    ∃ g : VariableGroup,
      s.Leaves (Item.trace module g.spelling [g.type] g.items) t ∧ s.Binds g.bindings t := by
  obtain ⟨g, names, d, u, hwords, hnames, hd, hwrite, hbinds⟩ :=
    exists_group_of_variableDeclaration hs h
  have hwritten :=
    leaves_of_forM (fun _ _ _ hv => leaves_of_variableOf hv hd) (hwords.within hs) hwrite
  have hitems : names.map (fun v => Item.variable v.marked g.type) = g.items := by
    rw [VariableGroup.items, ← hnames, List.map_map]
    rfl
  have hleaves := hwords.trans hwritten
  refine ⟨g, hleaves.of_eq ?_, hbinds hleaves.moduleName⟩
  rw [Item.trace, ← hitems, ← Item.join_texts]
  simp only [List.map_map, Function.comp_def]

theorem leaves_of_variableDeclaration_local
    {a : Unit}
    (hs : s.Within module .procedure depth)
    (h : variableDeclaration.Gives depth s a t) :
    ∃ g : VariableGroup,
      s.Leaves {
        words := g.spelling, code := g.localText module, added := g.items.map Item.entry
        named := modulesNamed [g.type] } t ∧
      s.Binds g.bindings t := by
  obtain ⟨g, names, d, u, hwords, hnames, hd, hwrite, hbinds⟩ :=
    exists_group_of_variableDeclaration hs h
  have hwritten :=
    leaves_of_forM (fun _ _ _ hv => leaves_of_variableOf_local hv hd) (hwords.within hs) hwrite
  have hleaves := hwords.trans hwritten
  refine ⟨g, hleaves.of_eq ?_, hbinds hleaves.moduleName⟩
  rw [VariableGroup.localText, ← hnames, Trace.join_map]
  simp [Trace.ext_iff, Function.comp_def, Named.marked]

theorem leaves_of_variableDeclarations
    {a : Unit}
    (hs : s.Within module .module depth)
    (h : variableDeclarations.Gives depth s a t) :
    ∃ groups : List VariableGroup,
      s.Leaves (Item.trace module (groups.flatMap VariableGroup.spelling)
        (groups.map VariableGroup.type) (groups.flatMap VariableGroup.items)) t ∧
      s.Binds (groups.flatMap VariableGroup.bindings) t := by
  obtain ⟨groups, hgroups, hbinds⟩ :=
    leaves_items_of_rounds VariableGroup.spelling (fun g => [g.type]) VariableGroup.items
    VariableGroup.bindings (fun {u v w} hu hmore hbody => by
      obtain rfl := sees_false hmore
      exact leaves_of_variableDeclaration hu hbody) sees_false hs (rounds_of_gives h)
  refine ⟨groups, hgroups.of_eq ?_, hbinds⟩
  rw [← List.map_eq_flatMap]

theorem leaves_of_variableDeclarations_local
    {a : Unit}
    (hs : s.Within module .procedure depth)
    (h : variableDeclarations.Gives depth s a t) :
    ∃ (groups : List VariableGroup) (added : List (String × Symbol.Kind)), s.Leaves
      { words := groups.flatMap VariableGroup.spelling
        code := String.join (groups.map (VariableGroup.localText module)), added
        named := modulesNamed (groups.map VariableGroup.type) } t ∧
          s.Binds (groups.flatMap VariableGroup.bindings) t := by
  obtain ⟨groups, hgroups, hbinds⟩ := leaves_of_rounds _ _ (fun {u v w} hu hmore hbody => by
    obtain rfl := sees_false hmore
    exact leaves_of_variableDeclaration_local hu hbody) sees_false hs (rounds_of_gives h)
  refine ⟨groups, groups.flatMap fun g => g.items.map Item.entry, hgroups.of_eq ?_,
    .of_steps hbinds⟩
  rw [Trace.join_map]
  simp [modulesNamed, List.map_flatMap, List.flatMap_map]

theorem translates_of_closingName
    {name : String} {a : Unit} (h : (closingName name).Gives depth s a t) :
    s.Translates [.identifier name] "" t := by
  unfold closingName at h
  simp only [gives_bind, gives_identifier_iff, gives_ite, gives_pure] at h
  obtain ⟨found, u, hname, ⟨rfl, -, rfl⟩ | ⟨-, h⟩⟩ := h
  · exact hname
  · exact absurd h (gives_reject _ _)

/--
Where only known names stand for modules, the members of other modules are written behind these.
-/
theorem State.KnowsOnly.context
    {known : String → String → Prop} (h : s.KnowsOnly known) (hs : s.Orderly) :
    s.context.RefersOnly s.moduleName known := by
  obtain ⟨_, _, _, hs⟩ := hs
  intro name
  cases hdenotes : s.context.denotes? name with
  | none =>
    left
    rw [Context.owner, hdenotes]
    rfl
  | some found =>
    rw [Context.owner_of_denotes? hdenotes]
    have hplain : ∀ {own}, s.context.denotes? (.plain own) = some found →
        found.1 = s.moduleName := by
      intro own hown
      obtain ⟨_, _, -, -, -, howner⟩ := (s.context.denotes?_plain_iff ..).1 hown
      exact howner
    cases name with
    | plain own => exact Or.inl (hplain hdenotes)
    | member called own =>
      obtain ⟨index, target, symbol, hfind, hresolve, hget, ⟨-, hown⟩ | ⟨hkind, hname, -⟩⟩ :=
        (s.context.denotes?_member_iff ..).1 hdenotes
      · exact Or.inl (hplain hown)
      · exact Or.inr ⟨called, own, rfl, h _ _ (hs.calls hfind hresolve hget (Or.inl hkind) hname)⟩

/-- Statements that may be missing, in front of something else. -/
theorem exists_block_of_gives
    {α : Type}
    {rest : Action α}
    {a : α}
    {known : String → String → Prop}
    (hs : s.Within module owner depth)
    (hlegible : s.Legible)
    (hknown : s.KnowsOnly known)
    (h : Gives depth (do if ← accept (.keyword .BEGIN) then statements; rest else rest) s a t) :
    ∃ (block : Option Block) (u : State),
      (∀ b ∈ block.toList, b.around = s.context ∧ b.Checked module known s.scope.result) ∧
      s.Translates (blockSpelling block) (blockText block) u ∧
      rest.Gives depth u a t := by
  rw [gives_if_accept_keyword_iff] at h
  obtain ⟨u, hbegin, h⟩ | ⟨-, h⟩ := h
  · rw [gives_bind] at h
    obtain ⟨_, v, hbody, h⟩ := h
    have hu : u.remaining < depth := Nat.lt_of_le_of_lt hbegin.remaining_le hs.remaining
    obtain ⟨body, hformed, -, hbody⟩ :=
      (gives_statements_iff (recognizes_statements depth) hu ()).1 hbody
    refine ⟨some ⟨body, u.context⟩, v, fun b hb => ?_,
      by simpa [blockSpelling, blockText] using hbegin.trans hbody, h⟩
    obtain rfl : b = ⟨body, u.context⟩ := by simpa using hb
    rw [hbegin.scope_eq] at hformed
    rw [hbegin.context_eq] at hformed ⊢
    exact ⟨rfl, hlegible.context, hs.moduleName ▸ hknown.context hs.orderly, hformed⟩
  · exact ⟨none, s, by simp, .refl s, h⟩

theorem leaves_of_procedureBody
    {name : String}
    {a : Unit}
    {known : String → String → Prop}
    (hs : s.Within module .procedure depth)
    (hlegible : s.Legible)
    (hknown : s.KnowsOnly known)
    (h : (procedureBody name).Gives depth s a t) :
    ∃ (locals : List (List VariableGroup)) (block : Option Block)
      (added : List (String × Symbol.Kind)),
      (∀ b ∈ block.toList,
        s.context.Binds (locals.flatMap fun groups => groups.flatMap VariableGroup.bindings)
          b.around ∧
        b.Checked module known s.scope.result) ∧
      s.Binds (locals.flatMap fun groups => groups.flatMap VariableGroup.bindings) t ∧ s.Leaves
      { words := Procedure.localsSpelling locals ++ blockSpelling block ++
          [.keyword .END, .identifier name, .sign .semicolon]
        code := Procedure.localsText module locals ++ blockText block ++ "\x7d\n"
        added
        named := modulesNamed (locals.flatMap fun groups => groups.map VariableGroup.type) } t := by
  unfold procedureBody at h
  rw [gives_bind] at h
  obtain ⟨_, s₁, hlocals, h⟩ := h
  have hlegible := (keeps_locals.gives hlegible hlocals).1
  obtain ⟨locals, hlocals, hbinds⟩ := leaves_of_rounds
    (fun locals : List VariableGroup × List (String × Symbol.Kind) =>
      { words := .keyword .VAR :: locals.1.flatMap VariableGroup.spelling
        code := String.join (locals.1.map (VariableGroup.localText module)), added := locals.2
        named := modulesNamed (locals.1.map VariableGroup.type) })
    (fun u locals w => u.Binds (locals.1.flatMap VariableGroup.bindings) w)
    (fun {u v w} hu hmore hbody => by
      have hvar := translates_of_accept_keyword hmore
      obtain ⟨groups, added, hgroups, hbinds⟩ :=
        leaves_of_variableDeclarations_local (hvar.leaves.within hu) hbody
      exact ⟨(groups, added), hvar.leaves.trans hgroups, hvar.binds.trans hbinds⟩)
    accept_false hs (rounds_of_gives hlocals)
  have hbinds := State.Binds.of_steps hbinds
  obtain ⟨block, s₂, haround, hblock, h⟩ :=
    exists_block_of_gives (hlocals.within hs) hlegible (hlocals.knowsOnly_of_procedure hs hknown) h
  simp only [gives_bind, gives_expect_keyword_iff, gives_expect_sign_iff, gives_write_iff] at h
  obtain ⟨_, s₃, hend, _, s₄, hname, _, s₅, hsemicolon, hwrite⟩ := h
  have htail :=
    (((hblock.trans hend).trans (translates_of_closingName hname)).trans hsemicolon).trans hwrite
  have hlist : (locals.map Prod.fst).flatMap (fun groups => groups.flatMap VariableGroup.bindings) =
      locals.flatMap fun locals => locals.1.flatMap VariableGroup.bindings := by
    rw [List.flatMap_map]
  refine ⟨locals.map Prod.fst, block, locals.flatMap Prod.snd, fun b hb => ?_, ?_,
    (hlocals.trans htail.leaves).of_eq ?_⟩
  · obtain ⟨hb, hchecked⟩ := haround b hb
    rw [hbinds.scope] at hchecked
    rw [hlist, hb]
    exact ⟨hbinds.context, hchecked⟩
  · rw [hlist]
    simpa using hbinds.trans htail.binds
  rw [Trace.join_map]
  simp [Trace.ext_iff, Procedure.localsSpelling, Procedure.localsText, modulesNamed,
    List.flatMap_map, List.map_flatMap,
    List.flatMap_assoc, Function.comp_def, String.append_assoc]

/-! ### Procedures -/

theorem leaves_of_parameterName
    {p : Named} (hs : s.Within module .procedure depth) (h : parameterName.Gives depth s p t) :
    s.Leaves { words := [.identifier p.name], added := [(p.name, .parameter)] } t := by
  unfold parameterName at h
  simp only [gives_bind, gives_identifier_iff, gives_pure] at h
  obtain ⟨name, s₁, hname, _, s₂, hfresh, index, s₃, hdeclare, rfl, rfl⟩ := h
  obtain rfl := eq_of_requireFresh hfresh
  have hopen := open_of_requireFresh (hname.unreserved hs.orderly) hfresh
  have hparameter : Scope.Owner.procedure.Declares .parameter := trivial
  refine (hname.leaves.trans (leaves_declare hopen ((hname.leaves.within hs).owner_eq ▸ hparameter)
    hdeclare)).of_eq ?_
  simp [Trace.ext_iff, Symbol.Kind.outline]

theorem leaves_of_parameterOf
    {d : Declarator}
    {p : Named}
    {found : DataType × String}
    (hs : s.Within module owner depth)
    (h : (parameterOf d p).Gives depth s found t) :
    s.Leaves {} t ∧ found = (d.type, d.around module p.name) := by
  unfold parameterOf at h
  simp only [gives_bind, gives_moduleName, gives_pure] at h
  obtain ⟨_, s₁, htype, _, s₂, ⟨rfl, rfl⟩, rfl, rfl⟩ := h
  have hleaves := leaves_setType htype
  exact ⟨hleaves, by rw [hleaves.moduleName, hs.moduleName]⟩

theorem leaves_of_parameterGroup
    {found : List (DataType × String)}
    (hs : s.Within module .procedure depth)
    (h : parameterGroup.Gives depth s found t) :
    ∃ g : ParameterGroup,
      found.map Prod.snd = g.declarators module ∧
      g.HasTypes t.types (found.map Prod.fst) ∧
      s.Binds g.bindings t ∧
      s.Leaves {
        words := g.spelling, added := g.names.map fun name => (name, .parameter)
        named := modulesNamed [g.type] } t := by
  have htypes := kept_types.gives h
  unfold parameterGroup at h
  simp only [gives_bind, gives_sees, gives_ite, gives_expect_sign_iff] at h
  obtain ⟨_, s, ⟨-, rfl⟩, ⟨-, _, _, h, -⟩ | ⟨-, names, s₁, hnames, _, s₂, hcolon, d, s₃, htype,
      hparameters⟩⟩ :=
    h
  · exact absurd h (gives_reject _ _)
  · have hentered :=
      State.Enters.of_items enters_of_parameterName enters_of_separator (items_of_gives hnames)
    have hkept := htype.steady
    obtain ⟨first, others, hnamed, hnames⟩ := leaves_of_items
      (fun name : String => { words := [.identifier name], added := [(name, .parameter)] })
        (fun p name => p.name = name)
      (fun hu hname => ⟨_, rfl, leaves_of_parameterName hu hname⟩)
      (fun hcomma => (translates_of_accept_sign hcomma).leaves) accept_false hs
        (items_of_gives hnames)
    have hmap : names.map Named.name = first :: others := by
      rwa [← List.forall₂_eq_eq_eq, List.forall₂_map_left_iff]
    obtain ⟨type, htype, hleft, hright, hdenotes⟩ := leaves_of_declaredType htype
    rw [((hnames.trans hcolon.leaves).within hs).moduleName] at hright
    have hwords := (hnames.trans hcolon.leaves).trans htype
    obtain ⟨hleaves, hfound⟩ := leaves_of_mapM id (fun p => (d.type, d.around module p.name))
      (fun _ => leaves_of_parameterOf) (hwords.within hs) hparameters
    rw [List.map_id] at hfound
    have hdenotes := hdenotes.mono (kept_types.gives hparameters)
    have hall := hwords.trans hleaves
    refine ⟨⟨first, others, type⟩, ?_, ⟨d.type, hdenotes, ?_⟩, ?_, hall.of_eq ?_⟩
    · rw [hfound, ParameterGroup.declarators, ParameterGroup.names, ← hmap, List.map_map,
        List.map_map]
      simp [Declarator.around, TypeExpression.declarator, hleft, hright]
    · rw [hfound, ParameterGroup.names, ← hmap, List.map_map, List.map_map]
      rfl
    · refine binds_of_names d.type hentered
        ⟨hkept.1.trans hcolon.symbols_eq, hkept.2.trans hcolon.scope_eq⟩
        ((steps_of_mapM hparameters).imp ?_) hall.moduleName htypes ?_
      · rintro _ _ _ ⟨_, hparameter⟩
        exact typing_of_parameterOf hparameter
      · rw [ParameterGroup.bindings, ParameterGroup.names, ← hmap, List.map_map,
          List.forall₂_map_left_iff, List.forall₂_map_right_iff, List.forall₂_same]
        exact fun _ _ => ⟨rfl, rfl, hdenotes⟩
    · rw [Trace.join_separated]
      simp [Trace.ext_iff, ParameterGroup.spelling, ParameterGroup.names, behindSign,
        ← List.map_eq_flatMap, List.flatMap_eq_nil_iff]

theorem leaves_of_parameterList
    {found : List (DataType × String)}
    (hs : s.Within module .procedure depth)
    (h : parameterList.Gives depth s found t) :
    ∃ (parameters : Option (List ParameterGroup)) (added : List (String × Symbol.Kind)),
      found.map Prod.snd = (parameters.getD []).flatMap (ParameterGroup.declarators module) ∧
      Heading.ParametersHave t.types (parameters.getD []) (found.map Prod.fst) ∧
      s.Binds ((parameters.getD []).flatMap ParameterGroup.bindings) t ∧ s.Leaves
        { words := Heading.parametersSpelling parameters, added
          named := modulesNamed ((parameters.getD []).map ParameterGroup.type) } t := by
  unfold parameterList at h
  rw [gives_if_accept_sign_iff] at h
  obtain ⟨s₁, hopen, h⟩ | ⟨-, h⟩ := h
  · simp only [gives_bind, gives_sees, gives_ite, gives_expect_sign_iff, gives_pure] at h
    obtain ⟨_, s₁, ⟨-, rfl⟩, ⟨-, _, s₂, ⟨rfl, rfl⟩, _, _, hclose, rfl, rfl⟩ |
      ⟨-, groups, s₂, hgroups, _, _, hclose, rfl, rfl⟩⟩ := h
    · exact ⟨some [], [], rfl, ⟨[], .nil, rfl⟩, (hopen.trans hclose).binds,
        (hopen.trans hclose).leaves⟩
    · obtain ⟨first, others, hfound, hgroups, hbinds⟩ := leaves_of_stepping_items
        (fun g : ParameterGroup =>
          { words := g.spelling, added := g.names.map fun name => (name, .parameter)
            named := modulesNamed [g.type] })
        (fun found g => found.map Prod.snd = g.declarators module ∧
          g.HasTypes s₂.types (found.map Prod.fst))
        (fun u g w => u.Binds g.bindings w)
        (fun hu hgrown hgroup => by
          obtain ⟨g, hg, htypes, hbinds, hleaves⟩ := leaves_of_parameterGroup hu hgroup
          exact ⟨g, ⟨hg, htypes.mono hgrown⟩, hleaves, hbinds⟩)
        (fun hsemicolon => ⟨(translates_of_accept_sign hsemicolon).leaves,
          (translates_of_accept_sign hsemicolon).binds.trans⟩)
        accept_false (hopen.leaves.within hs) (items_of_gives hgroups)
      have hmap : groups.map (List.map Prod.snd) =
          (first :: others).map (ParameterGroup.declarators module) := by
        rw [← List.forall₂_eq_eq_eq, List.forall₂_map_left_iff, List.forall₂_map_right_iff]
        exact hfound.imp fun _ _ h => h.1
      have htypes : Heading.ParametersHave s₂.types (first :: others)
          (groups.flatten.map Prod.fst) := by
        refine ⟨groups.map (List.map Prod.fst), ?_, List.map_flatten⟩
        rw [List.forall₂_map_right_iff]
        exact hfound.flip.imp fun _ _ h => h.2
      rw [← show t.types = s₂.types from hclose.types_eq] at htypes
      refine ⟨some (first :: others), (first :: others).flatMap fun g => g.names.map
        fun name => (name, .parameter), ?_,
        htypes, ?_, ((hopen.leaves.trans hgroups).trans hclose.leaves).of_eq ?_⟩
      · rw [List.map_flatten, hmap, List.flatMap_def]
        rfl
      · simpa using (hopen.binds.trans (.of_steps hbinds)).trans hclose.binds
      · rw [Trace.join_separated]
        simp [Trace.ext_iff, Heading.parametersSpelling, behindSign, modulesNamed, List.map_flatMap,
          List.flatMap_map]
  · obtain ⟨rfl, rfl⟩ := (gives_pure _ _).1 h
    exact ⟨none, [], rfl, ⟨[], .nil, rfl⟩, .refl _, .refl _⟩

theorem leaves_of_resultType {d : Declarator} (h : resultType.Gives depth s d t) :
    ∃ result : Option TypeExpression,
      s.Leaves { words := Heading.resultSpelling result, named := modulesNamed result.toList } t ∧
      d.left = result.elim "void" TypeExpression.left ∧
      d.right = result.elim "" (TypeExpression.right s.moduleName) ∧
      Heading.ResultHas t.types result d.type := by
  unfold resultType at h
  rw [gives_if_accept_sign_iff] at h
  obtain ⟨s₁, hcolon, h⟩ | ⟨-, h⟩ := h
  · obtain ⟨type, htype, hleft, hright, hdenotes⟩ := leaves_of_declaredType h
    rw [hcolon.leaves.moduleName] at hright
    exact ⟨some type, hcolon.leaves.trans htype, hleft, hright, hdenotes⟩
  · obtain ⟨rfl, rfl⟩ := (gives_pure _ _).1 h
    exact ⟨none, .refl _, rfl, rfl, rfl⟩

theorem signature_eq
    {name : String}
    {d : Declarator}
    {found : List (DataType × String)}
    {heading : Heading}
    (hname : heading.name.name = name)
    (hfound : found.map Prod.snd =
      (heading.parameters.getD []).flatMap (ParameterGroup.declarators module))
    (hleft : d.left = heading.result.elim "void" TypeExpression.left)
    (hright : d.right = heading.result.elim "" (TypeExpression.right module)) :
    signature module name d (found.map Prod.snd) = heading.signature module := by
  rw [signature, Heading.signature, Heading.parametersText, hfound, hleft, hright, hname]

/-- A signature that is entered is found in the table. -/
theorem exists_get_of_setSignature
    {index : Nat}
    {exported : Bool}
    {parameters : List DataType}
    {result : DataType}
    {a : Unit}
    (h : (ask (.setSignature index exported parameters result) done).Gives depth s a t) :
    t.types = s.types ∧
    ∃ symbol,
      t.symbols.get index = .ok symbol ∧
      symbol.kind = .procedure exported parameters ∧
      symbol.type = result := by
  obtain ⟨symbols, hset, rfl⟩ := (gives_setSignature index exported parameters result a).1 h
  refine ⟨rfl, ?_⟩
  unfold SymbolTable.update at hset
  split at hset
  · rename_i hlt
    cases hset
    have hindex : s.symbols.entries[index]? = some (s.symbols.entries[index]) :=
      Array.getElem?_eq_getElem hlt
    simp [SymbolTable.get, Array.getElem?_modify, hindex]
  · cases hset

/-- Texts in either unit leave the symbols, the types and the scope as they are. -/
theorem kept_of_texts
    {u : State} {p : Prop} {text published : String} {a : Unit} (hwrite : s.Translates [] text u)
    (h : p ∧ (publish published).Gives depth u a t ∨ ¬ p ∧ True ∧ t = u) :
    t.symbols = s.symbols ∧ t.types = s.types ∧ t.scope = s.scope := by
  have hcontext := hwrite.context_eq
  have hkept : u.symbols = s.symbols ∧ u.types = s.types ∧ u.scope = s.scope :=
    ⟨congrArg Context.symbols hcontext, congrArg Context.types hcontext, hwrite.scope_eq⟩
  obtain ⟨-, h⟩ | ⟨-, -, rfl⟩ := h
  · rw [(gives_publish _ _).1 h]
    exact hkept
  · exact hkept

theorem leaves_of_procedureHeader
    {entry : Nat}
    {name : String}
    {exported : Bool}
    {a : Unit}
    {outer inner : List (String × Symbol.Kind)}
    (hs : s.Within module .procedure depth) (hscoped : s.Scoped .procedure outer inner)
    (hentry : outer[entry]? = some (name, .procedure exported []))
    (h : (procedureHeader entry name exported).Gives depth s a t) :
    ∃ (heading : Heading) (added : List (String × Symbol.Kind)), heading.name = ⟨name, exported⟩ ∧
      (∃ symbol, t.symbols.get entry = .ok symbol ∧ ∃ parameters,
        symbol.kind = .procedure exported parameters ∧
        Heading.ParametersHave t.types (heading.parameters.getD []) parameters ∧
        Heading.ResultHas t.types heading.result symbol.type) ∧
      (∀ old raw, s.symbols.Lists (old ++ [raw]) → raw.name = name → entry = old.length → ∃ e new,
        t.symbols.Lists (old ++ e :: new) ∧ Binding.Enters t.types (.procedure heading) e ∧
        List.Forall₂ (Binding.Enters t.types) heading.bindings new) ∧
      Heading.ResultHas t.types heading.result t.scope.result ∧ s.Leaves
      { words := heading.rest
        code := "\n" ++ Item.linkage heading.name ++ heading.signature module ++ " \x7b\n"
        published := if exported then "extern " ++ heading.signature module ++ ";\n" else ""
        added
        named := modulesNamed heading.types } t := by
  unfold procedureHeader at h
  simp only [gives_bind, gives_expect_sign_iff, gives_moduleName, gives_write_iff, gives_ite,
    gives_pure] at h
  obtain ⟨found, s₁, hparameters, d, s₂, hresult, _, s₃, hsemicolon, _, s₄, hset, _, s₅, ⟨rfl, rfl⟩,
      _, s₆, hwrite, h⟩ :=
    h
  have hgrown := kept_types.gives hresult
  have hread := hresult.steady.1
  obtain ⟨parameters, added, hfound, hparametersHave, hbinds, hparameters⟩ :=
    leaves_of_parameterList hs hparameters
  obtain ⟨result, hresult, hleft, hright, hresultHas⟩ := leaves_of_resultType hresult
  rw [(hparameters.within hs).moduleName] at hright
  have hwords := (hparameters.trans hresult).trans hsemicolon.leaves
  obtain ⟨more, -, hmore⟩ := hwords.inScope hscoped
  have hkept : (outer ++ (inner ++ more))[entry]? = some (name, .procedure exported []) := by
    rw [List.getElem?_append_left (List.getElem?_eq_some_iff.1 hentry).1, hentry]
  have hsigned := hwords.trans (leaves_setSignature hmore hkept hset)
  have htext : signature s₅.moduleName name d (found.map Prod.snd) =
      Heading.signature module ⟨⟨name, exported⟩, parameters, result⟩ := by
    rw [hsigned.moduleName, hs.moduleName]
    exact signature_eq rfl hfound hleft hright
  change s₅.Translates [] ("\n" ++ Item.linkage ⟨name, exported⟩ ++
    signature s₅.moduleName name d (found.map Prod.snd) ++
    " \x7b\n") s₆ at hwrite
  rw [htext] at hwrite
  obtain ⟨htypes, symbol, hsymbol, hkind, htype⟩ := exists_get_of_setSignature hset
  obtain ⟨hsymbolsEnd, htypesEnd, hscopeEnd⟩ := kept_of_texts hwrite h
  have hend : t.types = s₂.types := by
    rw [htypesEnd, htypes, show s₃.types = s₂.types from hsemicolon.types_eq]
  have hentered : t.symbols.get entry = .ok symbol := by rw [hsymbolsEnd, hsymbol]
  have hparametersHave := hend ▸ hparametersHave.mono hgrown
  have hresultHas := hend ▸ hresultHas
  refine ⟨⟨⟨name, exported⟩, parameters, result⟩, added, rfl,
    ⟨symbol, hentered, _, hkind, hparametersHave, htype ▸ hresultHas⟩,
    fun old raw hraw hname hlast => ?_, ?_, ?_⟩
  · have hread' : s₃.symbols = s₁.symbols := hsemicolon.symbols_eq.trans hread
    exact exists_entry_of_heading hbinds hread' hset hsymbolsEnd (hend ▸ hgrown) hparametersHave
      hresultHas hraw hname hlast
  · obtain ⟨_, -, rfl⟩ := (gives_setSignature ..).1 hset
    rw [hscopeEnd]
    exact hresultHas
  obtain ⟨rfl, h⟩ | ⟨hexported, -, rfl⟩ := h
  · have hpublish := leaves_publish h
    change s₆.Leaves
      { published := "extern " ++ signature s₅.moduleName name d (found.map Prod.snd) ++ ";\n" } t
      at hpublish
    rw [htext] at hpublish
    refine ((hsigned.trans hwrite.leaves).trans hpublish).of_eq ?_
    simp [Trace.ext_iff, Heading.rest, Heading.types, modulesNamed]
  · refine (hsigned.trans hwrite.leaves).of_eq ?_
    simp [Trace.ext_iff, Heading.rest, Heading.types, modulesNamed, hexported]

theorem leaves_of_procedureDeclaration
    {a : Unit}
    {known : String → String → Prop}
    (hs : s.Within module .module depth)
    (hlegible : s.Legible)
    (hknown : s.KnowsOnly known)
    (h : procedureDeclaration.Gives depth s a t) :
    ∃ p : Procedure,
      p.Checked module known s.context ∧
      s.Binds [.procedure p.heading] t ∧
      s.Leaves (Item.trace module p.spelling p.types [p.item module]) t := by
  unfold procedureDeclaration at h
  simp only [gives_bind] at h
  obtain ⟨name, s₁, hname, exported, s₂, hmark, _, s₃, hfresh, entry, s₄, hdeclare, h⟩ := h
  obtain ⟨-, hletters⟩ := keeps_identifier.gives hlegible hname
  obtain rfl := eq_of_requireFresh hfresh
  have hmarked := translates_of_marked hname hmark
  have hnamed := ((keeps_declare _ _ hletters).gives (hlegible.translates hmarked) hdeclare).1
  have hopen := open_of_requireFresh (hmarked.unreserved hs.orderly) hfresh
  have hkind : Scope.Owner.module.Declares (.procedure exported []) := rfl
  have hwithin := hmarked.leaves.within hs
  have hdeclared := hmarked.leaves.trans (leaves_declare hopen (hwithin.owner_eq ▸ hkind) hdeclare)
  -- The entry of the procedure is the last one around its scope.
  obtain ⟨outer, inner, hscoped⟩ := hwithin.inScope
  obtain ⟨rfl, hscoped⟩ :=
    (@honors_declare someEntry _ _ _ depth name _ .unknown (hopen.fresh hscoped) hopen.unreserved
    hkind).gives hscoped hdeclare
  have hs₄ := hdeclared.within hs
  obtain ⟨s₅, hbody, hrelease, htypes, hscope, hleave⟩ :=
    exists_leaves_of_inProcedure hs₄.owner_eq h
  have hinside : State.Within s₄.entered module .procedure depth :=
    ⟨hs₄.moduleName, hs₄.remaining, _, _, hscoped.enter⟩
  rw [gives_bind] at hbody
  obtain ⟨_, s₆, hheader, hbody⟩ := hbody
  have hnamed' := legible_invariant.enter inferInstance _ hnamed
  have hlegible := ((keeps_procedureHeader _ _ _).gives hnamed' hheader).1
  have hbegun := kept_types.gives hheader
  obtain ⟨heading, added, hheading, -, hentry, hresult, hheader⟩ :=
    leaves_of_procedureHeader hinside hscoped.enter (by simp) hheader
  have hentered : State.KnowsOnly known s₄.entered :=
    hdeclared.knowsOnly hs.orderly hknown (by simp [Symbol.Kind.outline])
  have hs₆ := hheader.within hinside
  obtain ⟨locals, block, more, haround, hlocals, hbody⟩ :=
    leaves_of_procedureBody hs₆ hlegible (hheader.knowsOnly_of_procedure hinside hentered) hbody
  obtain ⟨htypes', hscope', hraw⟩ := entered_of_procedureName hmarked hdeclare
  have hgrown : s₆.types.Extends s.types := by rwa [← htypes']
  have hbinds : s.context.Binds (.procedure heading :: heading.bindings) s₆.context := by
    refine ⟨hs₆.moduleName.trans hs.moduleName.symm, hgrown, fun old hold => ?_⟩
    obtain ⟨hlength, hraw⟩ := hraw old hold
    obtain ⟨e, new, hlists, he, hnew⟩ := hentry old _ hraw rfl hlength
    exact ⟨e :: new, hlists, .cons he hnew⟩
  have hleaves := hdeclared.trans (hleave _ (hheader.trans hbody))
  have hscope'' : t.scope = s.scope := by rw [hscope, ← hscoped.scope_eq, hscope']
  refine ⟨⟨heading, locals, block⟩, fun b hb => ?_, ⟨hscope'', ?_⟩, hleaves.of_eq ?_⟩
  · obtain ⟨hb, hchecked⟩ := haround b hb
    exact ⟨hbinds.trans hb, _, hresult.mono hb.types, hchecked⟩
  · refine binds_of_release (hbinds.trans hlocals.context)
      (fun old hold => ?_) hrelease htypes hleaves.moduleName
    exact ⟨_, (hraw old hold).2, by rw [hheading]⟩
  simp [Trace.ext_iff, Trace.released, Item.trace, Item.texts_singleton, Procedure.spelling,
    Procedure.item, Procedure.types,
    Item.definition, Item.exported, Item.name, Item.interfaceLine, Item.entry, Symbol.Kind.outline,
      modulesNamed, hheading,
    String.append_assoc]

/-! ### Sections -/

/-- A group of declarations leaves the trace of a section. -/
theorem leaves_of_declarations
    {u : State}
    {known : String → String → Prop}
    (hs : s.Within module .module depth)
    (hlegible : s.Legible)
    (hknown : s.KnowsOnly known)
    (h : declarations.Gives depth s true u) :
    ∃ part : Grammar.Section,
      u.scope = s.scope ∧
      part.Checked module known s.context u.context ∧
      s.Leaves (Item.trace module part.spelling part.types (part.items module)) u := by
  have hsection :
      ∀ (word : Keyword) (words : List Word) (types : List TypeExpression) (items : List Item),
      { words := [.keyword word] } ++ Item.trace module words types items =
        Item.trace module (.keyword word :: words) types items := by
    intro word words types items
    simp [Trace.ext_iff, Item.trace]
  unfold declarations at h
  simp only [gives_if_accept_keyword_iff] at h
  obtain ⟨s₁, hword, h⟩ | ⟨-, ⟨s₁, hword, h⟩ | ⟨-, ⟨s₁, hword, h⟩ | ⟨-, h⟩⟩⟩ := h
  · simp only [gives_bind, gives_pure] at h
    obtain ⟨_, _, h, -, rfl⟩ := h
    obtain ⟨list, hlist, hbinds⟩ := leaves_of_constantDeclarations (hword.leaves.within hs) h
    have hbinds := hword.binds.trans hbinds
    exact ⟨.constants list, hbinds.scope, ⟨hbinds.context, by simp⟩,
      (hword.leaves.trans hlist).of_eq (hsection _ _ _ _)⟩
  · simp only [gives_bind, gives_pure] at h
    obtain ⟨_, _, h, -, rfl⟩ := h
    obtain ⟨groups, hgroups, hbinds⟩ := leaves_of_variableDeclarations (hword.leaves.within hs) h
    have hbinds := hword.binds.trans hbinds
    exact ⟨.variableGroups groups, hbinds.scope, ⟨hbinds.context, by simp⟩,
      (hword.leaves.trans hgroups).of_eq (hsection _ _ _ _)⟩
  · simp only [gives_bind, gives_pure] at h
    obtain ⟨_, _, h, -, rfl⟩ := h
    obtain ⟨p, hchecked, hbinds, hp⟩ :=
      leaves_of_procedureDeclaration (hword.leaves.within hs) (hlegible.translates hword)
      (hword.leaves.knowsOnly hs.orderly hknown (by simp)) h
    have hbinds := hword.binds.trans hbinds
    refine ⟨.procedure p, hbinds.scope, ⟨hbinds.context, ?_⟩,
      (hword.leaves.trans hp).of_eq (hsection _ _ _ _)⟩
    rintro q ⟨rfl⟩
    rwa [hword.context_eq] at hchecked
  · simp [gives_pure] at h

end Groups

end Compilation
end Oberon
