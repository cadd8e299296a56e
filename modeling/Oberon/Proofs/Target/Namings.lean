import Oberon.Proofs.Target.Header
import Oberon.Proofs.Target.Nesting

/-!
# What the lines of a C text name

A line of C defines a name for the preprocessor, or it declares names, or neither.

    # define name ...          defines the name
    type name ...              declares the name, and in a prototype the parameters

A declaration begins with a word and something else of its type.  It declares the last word of each
run of words and asterisks: the words in front belong to the type.

**Hygiene.**  A name that is declared behind its definition is not what the compiler sees, because
the preprocessor puts the text of the definition in its place.  `Hygienic` says that this does not
happen.

**Main result.**  `bodyQuiet`: the lines of statements define and declare nothing.
-/

namespace Oberon
namespace Target

open Lexeme

/-! ### Lines that name something -/

/-- A name that a line brings in, for the preprocessor or by a declaration. -/
inductive Naming
  | defined (name : String)
  | declared (name : String)
  deriving DecidableEq, Repr

def Naming.map (rename : String → String) : Naming → Naming
  | defined name => defined (rename name)
  | declared name => declared (rename name)

/-- The name that a line defines for the preprocessor. -/
def definedBy : List Lexeme → List String
  | .other sign :: .word directive :: .word name :: _ =>
    if sign = "#" ∧ directive = "define" then [name] else []
  | _ => []

/-- A declaration goes on: its last word is not yet the declared name. -/
def continuesType : List Lexeme → Bool
  | .word _ :: _ => true
  | .binary .times :: _ => true
  | .opening .round :: .binary .times :: _ => true
  | _ => false

section

variable (text : String) (rest : List Lexeme)

@[simp] theorem continuesType_word : continuesType (.word text :: rest) = true := rfl

@[simp] theorem continuesType_times : continuesType (.binary .times :: rest) = true := rfl

@[simp] theorem continuesType_pointer :
    continuesType (.opening .round :: .binary .times :: rest) = true :=
  rfl

end

/-- The words behind a word or an asterisk with which no type goes on. -/
def runEnds : Bool → List Lexeme → List String
  | _, [] => []
  | behind, .word text :: rest =>
    if behind && !continuesType rest then text :: runEnds true rest else runEnds true rest
  | _, .binary .times :: rest => runEnds true rest
  | _, _ :: rest => runEnds false rest

theorem runEnds_cons
    {lexeme : Lexeme}
    (h : lexeme.detaches = true)
    (behind : Bool)
    (rest : List Lexeme) :
    runEnds behind (lexeme :: rest) = runEnds false rest := by
  unfold Lexeme.detaches at h
  split at h
  · cases h
  · cases h
  · rename_i hword htimes
    exact runEnds.eq_4 behind lexeme rest hword htimes

/-- The names that a line declares. -/
def declaratorsOf : List Lexeme → List String
  | .word text :: rest => if continuesType rest then runEnds false (.word text :: rest) else []
  | _ => []

/-- What a line brings in. -/
def namings (line : List Lexeme) : List Naming :=
  (definedBy line).map .defined ++ (declaratorsOf line).map .declared

/-- What the lines of a text bring in, one behind the other. -/
def namingsIn (text : List Char) : List Naming := (lines text).flatMap namings

example : namingsIn "#define\tM_n\t3\nstatic char *M_f(int M_x, void (*M_p)())[M_n] \x7b\n".toList =
    [.defined "M_n", .declared "M_f", .declared "M_x", .declared "M_p"] := by decide

/-- The preprocessor puts a definition in the place of a declared name. -/
def Naming.captures : Naming → Naming → Bool
  | defined first, declared second => first = second
  | _, _ => false

theorem Naming.captures_iff {earlier later : Naming} :
    earlier.captures later = true ↔ ∃ name, earlier = .defined name ∧ later = .declared name := by
  cases earlier <;> cases later <;> simp [captures, eq_comm]

/-- No name is declared behind its definition. -/
def Hygienic (found : List Naming) : Prop :=
  found.Pairwise fun earlier later => ¬ earlier.captures later

instance (found : List Naming) :
    Decidable (Hygienic found) :=
  inferInstanceAs (Decidable (List.Pairwise _ _))

theorem Hygienic.of_disjoint
    {found : List Naming} (h : ∀ name, .defined name ∈ found → .declared name ∉ found) :
    Hygienic found := by
  refine List.pairwise_of_forall_mem_list fun a ha b hb hcaptures => ?_
  obtain ⟨name, rfl, rfl⟩ := Naming.captures_iff.1 hcaptures
  exact h name ha hb

theorem hygienic_append_iff {first second : List Naming} :
    Hygienic (first ++ second) ↔
      Hygienic first ∧
      Hygienic second ∧
      ∀ name, .defined name ∈ first → .declared name ∉ second := by
  rw [Hygienic, List.pairwise_append]
  refine and_congr Iff.rfl (and_congr Iff.rfl ⟨fun h name hfirst hsecond => ?_,
    fun h a ha b hb hcaptures => ?_⟩)
  · exact h _ hfirst _ hsecond (Naming.captures_iff.2 ⟨name, rfl, rfl⟩)
  · obtain ⟨name, rfl, rfl⟩ := Naming.captures_iff.1 hcaptures
    exact h name ha hb

/-- Declared names that are not defined in front may be left out. -/
theorem hygienic_leaveOut_iff
    {first second : List Naming}
    {names : List String}
    (h : ∀ name ∈ names, .defined name ∉ first) :
    Hygienic (first ++ (names.map .declared ++ second)) ↔ Hygienic (first ++ second) := by
  have hnames : ∀ name, .defined name ∉ names.map Naming.declared := by simp
  have hmiddle : Hygienic (names.map .declared) :=
    .of_disjoint fun name hdefined => absurd hdefined (hnames name)
  rw [hygienic_append_iff, hygienic_append_iff, hygienic_append_iff]
  constructor
  · rintro ⟨hfirst, ⟨-, hsecond, -⟩, hboth⟩
    exact ⟨hfirst, hsecond,
      fun name hdefined hdeclared => hboth name hdefined (List.mem_append_right _ hdeclared)⟩
  · rintro ⟨hfirst, hsecond, hboth⟩
    refine ⟨hfirst, ⟨hmiddle, hsecond, fun name hdefined => absurd hdefined (hnames name)⟩,
      fun name hdefined hdeclared => ?_⟩
    obtain hdeclared | hdeclared := List.mem_append.1 hdeclared
    · exact h name (by simpa using hdeclared) hdefined
    · exact hboth name hdefined hdeclared

theorem hygienic_map_iff
    {rename : String → String}
    (hrename : Function.Injective rename)
    {found : List Naming} :
    Hygienic (found.map (Naming.map rename)) ↔ Hygienic found := by
  have hcaptures : ∀ a b : Naming, (a.map rename).captures (b.map rename) = a.captures b := by
    intro a b
    cases a <;> cases b <;> simp [Naming.map, Naming.captures, hrename.eq_iff]
  rw [Hygienic, Hygienic, List.pairwise_map]
  simp only [hcaptures]

/-- The text has lines of its own, which bring the names in. -/
def Brings (text : List Char) (found : List Naming) : Prop :=
  ∀ rest, namingsIn (text ++ rest) = found ++ namingsIn rest

namespace Brings

variable {text more : List Char} {found others : List Naming}

theorem nil : Brings [] [] := fun _ => rfl

theorem append (h : Brings text found) (hmore : Brings more others) :
    Brings (text ++ more) (found ++ others) := by
  intro rest
  rw [List.append_assoc, h, hmore, List.append_assoc]

theorem namingsIn_eq (h : Brings text found) : namingsIn text = found := by
  have hempty := h []
  rwa [List.append_nil, show namingsIn [] = [] from rfl, List.append_nil] at hempty

theorem join {ι : Type} {things : List ι} {text : ι → String} {found : ι → List Naming}
    (h : ∀ thing ∈ things, Brings (text thing).toList (found thing)) :
    Brings (String.join (things.map text)).toList (things.flatMap found) := by
  induction things with
  | nil => exact .nil
  | cons thing things ih =>
    rw [List.map_cons, String.join_cons, String.toList_append, List.flatMap_cons]
    exact (h thing List.mem_cons_self).append (ih
      fun other hother => h other (List.mem_cons_of_mem _ hother))

theorem joinAll
    {ι κ : Type}
    {groups : List ι}
    {things : ι → List κ}
    {text : κ → String}
    {found : ι → List Naming}
    (h : ∀ group ∈ groups, Brings (String.join ((things group).map text)).toList (found group)) :
    Brings (String.join ((groups.flatMap things).map text)).toList (groups.flatMap found) := by
  have htext : ∀ groups : List ι, String.join ((groups.flatMap things).map text) =
      String.join (groups.map fun group => String.join ((things group).map text)) := by
    intro groups
    induction groups with
    | nil => rfl
    | cons group groups ih =>
      rw [List.flatMap_cons, List.map_append, String.join_append, ih, List.map_cons,
        String.join_cons]
  rw [htext]
  exact join h

theorem each {ι : Type} {things : List ι} {text : ι → String} {found : ι → Naming}
    (h : ∀ thing ∈ things, Brings (text thing).toList [found thing]) :
    Brings (String.join (things.map text)).toList (things.map found) := by
  have hfound : things.map found = things.flatMap fun thing => [found thing] := List.map_eq_flatMap
  rw [hfound]
  exact join h

theorem line
    {line : List Lexeme}
    (h : ∀ rest, linesFrom [] .nothing (text ++ rest) = line :: linesFrom [] .nothing rest) :
    Brings text (namings line) := by
  intro rest
  rw [namingsIn, lines, h, List.flatMap_cons]
  rfl

end Brings

/-! ### Texts inside a line -/

/-- The text goes on with the line that it stands in. -/
def InLine (text : List Char) : Prop :=
  ∀ line pending, pending.endsWithLine = true →
    ∃ more next, next.endsWithLine = true ∧
      ∀ rest, linesFrom line pending (text ++ rest) = linesFrom (line ++ more) next rest

namespace InLine

variable {text more : List Char}

theorem nil : InLine [] := fun line pending h => ⟨[], pending, h, fun rest => by simp⟩

theorem append (h : InLine text) (hmore : InLine more) : InLine (text ++ more) := by
  intro line pending hpending
  obtain ⟨first, next, hnext, hfirst⟩ := h line pending hpending
  obtain ⟨second, last, hlast, hsecond⟩ := hmore (line ++ first) next hnext
  refine ⟨first ++ second, last, hlast, fun rest => ?_⟩
  rw [List.append_assoc, hfirst, hsecond, List.append_assoc]

theorem endsWithLine_begin {c : Char} (hc : ¬ (c = '"' ∨ c = '\'')) :
    (begin c).2.endsWithLine = true := by
  simp only [begin, if_neg hc]
  split
  · rfl
  · split
    · rfl
    · split <;> rfl

theorem endsWithLine_step
    {pending : Pending}
    {c : Char}
    (hpending : pending.endsWithLine = true)
    (hc : ¬ (c = '"' ∨ c = '\'')) :
    (step pending c).2.endsWithLine = true := by
  cases pending with
  | nothing => exact endsWithLine_begin hc
  | word text =>
    rw [step]
    split
    · rfl
    · exact endsWithLine_begin hc
  | quote mark text => cases hpending
  | sign d =>
    rw [step]
    split
    · rfl
    · exact endsWithLine_begin hc

theorem char {c : Char} (hquote : ¬ (c = '"' ∨ c = '\'')) (hline : c ≠ '\n') : InLine [c] := by
  intro line pending hpending
  exact ⟨(step pending c).1, (step pending c).2, endsWithLine_step hpending hquote,
    fun rest => linesFrom_cons hline⟩

/-- A literal ends what is pending, and leaves nothing pending. -/
theorem of_isQuoted (h : IsQuoted text) : InLine text := by
  obtain ⟨mark, inner, hmark, hinner, rfl⟩ := h
  intro line pending hpending
  have hnewline : mark ≠ '\n' := by obtain rfl | rfl := hmark <;> decide
  have hstep : ∃ finished, step pending mark = (finished, .quote mark [mark]) := by
    have hbegin : begin mark = ([], .quote mark [mark]) := by obtain rfl | rfl := hmark <;> rfl
    cases pending with
    | nothing => exact ⟨[], hbegin⟩
    | word text =>
      have hstop : continues text mark = false := by
        obtain rfl | rfl := hmark <;> simp [continues, isNameChar]
      exact ⟨[.word (String.ofList text)], by simp [step, hstop, hbegin, after]⟩
    | quote mark text => cases hpending
    | sign d =>
      have hsigns : ofSigns? d mark = none := by
        obtain rfl | rfl := hmark <;> unfold ofSigns? <;> split <;> simp_all
      exact ⟨[ofSign d], by simp [step, hsigns, hbegin, after]⟩
  obtain ⟨finished, hstep⟩ := hstep
  refine ⟨finished ++ [quoted (String.ofList (mark :: inner ++ [mark]))], .nothing, rfl,
    fun rest => ?_⟩
  rw [List.append_assoc, List.cons_append, linesFrom_cons hnewline, hstep]
  simpa using linesFrom_quote_append (line ++ finished) [mark] rest hinner

theorem of_nested (h : Nested false text) : InLine text := by
  have hordinary : ∀ {c : Char}, isOrdinary c = true → ¬ (c = '"' ∨ c = '\'') := by
    rintro c hc (rfl | rfl) <;> cases hc
  induction h with
  | nil => exact .nil
  | char hc hline _ ih =>
    exact (InLine.char (hordinary hc) fun hnewline => nomatch hline hnewline).append ih
  | quoted htext _ ih => exact (InLine.of_isQuoted htext).append ih
  | @pair opening closing inner rest hpair _ _ ihinner ih =>
    have hbrackets : InLine [opening] ∧ InLine [closing] := by
      unfold closing? at hpair
      split at hpair <;> cases hpair <;> exact ⟨.char (by decide) (by decide),
        .char (by decide) (by decide)⟩
    have hwhole := hbrackets.1.append (ihinner.append (hbrackets.2.append ih))
    simpa using hwhole

theorem plain
    (text : String)
    (h : text.toList.all (fun c => c != '"' && c != '\'' && c != '\n') = true) :
    InLine text.toList := by
  generalize text.toList = chars at h
  induction chars with
  | nil => exact .nil
  | cons c chars ih =>
    simp only [List.all_cons, Bool.and_eq_true, bne_iff_ne] at h
    obtain ⟨⟨⟨hdouble, hsingle⟩, hline⟩, hrest⟩ := h
    exact (InLine.char (by simp [hdouble, hsingle]) hline).append (ih hrest)

end InLine

/-! ### Quiet lines -/

/-- Behind the lexemes of a line, the text is the rest of a line that brings nothing in. -/
def Settles (line : List Lexeme) (pending : Pending) (text : List Char) : Prop :=
  ∀ rest, ∃ more, linesFrom line pending (text ++ '\n' :: rest) = more ::
    linesFrom [] .nothing rest ∧ namings more = []

namespace Settles

variable {line : List Lexeme} {pending : Pending} {text : List Char}

/-- What a line begins with may exclude that it brings something in. -/
theorem of_forall
    (hline : ∀ more, namings (line ++ more) = [])
    (hpending : pending.endsWithLine = true)
    (h : InLine text) :
    Settles line pending text := by
  intro rest
  obtain ⟨more, next, hnext, hread⟩ := h line pending hpending
  refine ⟨line ++ more ++ finish next, ?_, by rw [List.append_assoc]; exact hline _⟩
  rw [hread, linesFrom, if_pos ⟨rfl, hnext⟩]

theorem scan
    {front : String}
    (lexemes : List Lexeme)
    (hfront : '\n' ∉ front.toList)
    (hscan : Lexeme.scan .nothing front.toList = (lexemes, .nothing))
    (h : Settles (line ++ lexemes) .nothing text) :
    Settles line .nothing (front.toList ++ text) := by
  intro rest
  rw [List.append_assoc, linesFrom_append lexemes hfront hscan]
  exact h rest

theorem word
    {name : List Char}
    (hname : IsWord name)
    (htext : Breaks text)
    (h : Settles (line ++ [.word (String.ofList name)]) .nothing text) :
    Settles line .nothing (name ++ text) := by
  intro rest
  have hbreaks : Breaks (text ++ '\n' :: rest) := by
    cases text with
    | nil => exact breaks_cons _ (by decide)
    | cons c text => exact breaks_cons _ (htext c (by simp))
  rw [List.append_assoc, linesFrom_word hname hbreaks]
  exact h rest

theorem brings (h : Settles [] .nothing text) : Brings (text ++ ['\n']) [] := by
  intro rest
  obtain ⟨more, hread, hmore⟩ := h rest
  rw [List.append_assoc, List.singleton_append, namingsIn, lines, hread, List.flatMap_cons, hmore]
  rfl

end Settles

/-- A fixed text in one line. -/
theorem brings_literal
    (text : String)
    (hline : '\n' ∉ text.toList)
    (hends : (scan .nothing text.toList).2.endsWithLine = true)
    (hquiet : namings (lex text.toList) = []) :
    Brings (text ++ "\n").toList [] := by
  have hread : ∀ rest,
      linesFrom [] .nothing ((text ++ "\n").toList ++ rest) =
        lex text.toList :: linesFrom [] .nothing rest := by
    intro rest
    rw [String.toList_append, List.append_assoc, linesFrom_line hline hends, List.nil_append]
  exact hquiet ▸ Brings.line hread

/-- A word between fixed texts in one line. -/
theorem brings_around
    {front word back : String}
    (lexemes : List Lexeme)
    (hword : IsWord word.toList)
    (hfront : '\n' ∉ front.toList)
    (hscan : scan .nothing front.toList = (lexemes, .nothing))
    (hback : '\n' ∉ back.toList)
    (hbreaks : back.toList.head?.any breaking.contains = true)
    (hends : (scan .nothing back.toList).2.endsWithLine = true) :
    Brings (front ++ word ++ back ++ "\n").toList
      (namings (lexemes ++ .word word :: lex back.toList)) := by
  refine Brings.line fun rest => ?_
  simp only [String.toList_append, List.append_assoc]
  rw [linesFrom_append lexemes hfront hscan, linesFrom_word hword (breaks_append _ hbreaks),
    linesFrom_line hback hends]
  simp

/-- Behind a word stands a fixed text, and then the rest of the line. -/
theorem settles_name
    {line : List Lexeme}
    {front : String}
    {text : List Char}
    (lexemes : List Lexeme)
    (hfront : '\n' ∉ front.toList)
    (hscan : scan .nothing front.toList = (lexemes, .nothing))
    (hbreaks : front.toList.head?.any breaking.contains = true)
    (hline : ∀ name more, namings (line ++ .word name :: lexemes ++ more) = [])
    (h : InLine text)
    {name : List Char}
    (hname : IsWord name) :
    Settles line .nothing (name ++ (front.toList ++ text)) := by
  refine .word hname (breaks_append _ hbreaks)
    (.scan lexemes hfront hscan (.of_forall (fun more => ?_) rfl h))
  simpa using hline (String.ofList name) more

/-- A line that begins with a closing curly bracket. -/
theorem settles_closing {text : List Char} (h : InLine text) :
    Settles [] .nothing ("\x7d ".toList ++ text) := by
  have hline : ∀ more, namings ([.other "\x7d"] ++ more) = [] := by
    intro more
    have hdefined : definedBy (.other "\x7d" :: more) = [] := by
      unfold definedBy
      split
      · rename_i heq
        cases heq
        simp
      · rfl
    simp [namings, hdefined, declaratorsOf]
  exact .scan [.other "\x7d"] (by decide) rfl (.of_forall hline rfl h)

/--
A word that is counted by one.  The first sign may belong to the word, if the word looks like a
number with an exponent.
-/
theorem settles_counted
    {name : List Char}
    {c : Char}
    (hc : c = '+' ∨ c = '-')
    (hname : IsWord name) :
    Settles [] .nothing (name ++ [c, c, ';']) := by
  intro rest
  rw [List.append_assoc, linesFrom_pending_word hname]
  by_cases hsign : continues name c = true
  · have hstop : continues (name ++ [c]) c = false := by
      obtain rfl | rfl := hc <;> simp [continues, isNameChar]
    refine ⟨[.word (String.ofList (name ++ [c])), ofSign c, .other ";"], ?_,
      by obtain rfl | rfl := hc <;> rfl⟩
    obtain rfl | rfl := hc <;>
      simp [linesFrom, Pending.endsWithLine, step, hsign, hstop, after, begin, isNameChar, single?,
        ofSigns?, ofSign, finish]
  · refine ⟨[.word (String.ofList name), .other (String.ofList [c, c]), .other ";"], ?_, rfl⟩
    obtain rfl | rfl := hc <;>
      simp [linesFrom, Pending.endsWithLine, step, hsign, after, begin, isNameChar, single?,
        ofSigns?, ofSign, finish]

end Target

namespace Grammar

open Target Target.Lexeme

variable {c : Context} {line : List Lexeme} {rest : List Char}

/-! ### Expressions inside a line -/

/-- The text of a simple expression begins with a bracket, or with a minus sign and a bracket. -/
theorem Simple.exists_text_eq
    (hc : c.Legible) (side : Simple) (h : ∀ word ∈ side.spelling, word.Legible) :
    ∃ more,
      InLine more ∧
      ((side.text c).toList = '(' :: more ∨ (side.text c).toList = '-' :: '(' :: more) := by
  obtain ⟨sign, ⟨first, factors⟩, others⟩ := side
  rw [Simple.spelling, Term.spelling] at h
  have hfirst := first.nested hc fun word hword => h word (by simp [hword])
  have hfactors := factorsNested hc factors fun word hword => h word (by simp [hword])
  have hothers := termsNested hc others fun word hword => h word (by simp [hword])
  have hmore :=
    (InLine.of_nested (hfirst.append hfactors)).append
      ((InLine.plain ")" (by decide)).append (.of_nested hothers))
  refine ⟨_, hmore, ?_⟩
  obtain _ | _ | _ := sign
  · exact Or.inl (by simp [Simple.text, Term.text])
  · exact Or.inl (by simp [Simple.text, Term.text, Polarity.text])
  · exact Or.inr (by simp [Simple.text, Term.text, Polarity.text])

/--
A line that goes on with an expression and is quiet whether or not the expression begins with a
minus sign.
-/
theorem Expression.settles
    (hc : c.Legible)
    (e : Expression)
    (h : ∀ word ∈ e.spelling, word.Legible)
    (hround : ∀ more, namings (line ++ .opening .round :: .opening .round :: more) = [])
    (hminus : ∀ more, namings (line ++ .opening .round :: .binary .minus :: more) = [])
    (hrest : InLine rest) :
    Settles line .nothing ((e.text c).toList ++ rest) := by
  have hside : ∀ side : Simple, (∀ word ∈ side.spelling, word.Legible) → ∀ behind, InLine behind →
      Settles line .nothing ('(' :: (side.text c).toList ++ behind) := by
    intro side hwords behind hbehind
    obtain ⟨more, hmore, htext | htext⟩ := side.exists_text_eq hc hwords
    · have hgroup : Settles line .nothing ("((".toList ++ (more ++ behind)) :=
        .scan [.opening .round, .opening .round] (by decide) rfl
          (.of_forall (fun more => by simpa using hround more) rfl (hmore.append hbehind))
      simpa [htext] using hgroup
    · have hgroup : Settles line .nothing ("(-(".toList ++ (more ++ behind)) :=
        .scan [.opening .round, .binary .minus, .opening .round] (by decide) rfl
          (.of_forall (fun more => by simpa using hminus (.opening .round :: more)) rfl
            (hmore.append hbehind))
      simpa [htext] using hgroup
  cases e with
  | simple side =>
    rw [Expression.spelling] at h
    simpa [Expression.text] using hside side h _ ((InLine.plain ")" (by decide)).append hrest)
  | relation left op right =>
    rw [Expression.spelling] at h
    have hright := right.nested hc fun word hword => h word (by simp [hword])
    have hbehind := Nested.append (nested_operator op.1) (Nested.round hright .nil)
    have hline := (InLine.plain ")" (by decide)).append ((InLine.of_nested hbehind).append hrest)
    simpa [Expression.text] using hside left (fun word hword => h word (by simp [hword])) _ hline

/-- A line that goes on with a designator and is quiet behind its name. -/
theorem Designator.settles
    (hc : c.Legible)
    (target : Designator)
    (h : ∀ word ∈ target.spelling, word.Legible)
    (hindexed : ∀ name more, namings (line ++ .word name :: .opening .square :: more) = [])
    (hplain : ∀ name, IsWord name → Settles line .nothing (name ++ rest))
    (hrest : InLine rest) :
    Settles line .nothing ((target.text c).toList ++ rest) := by
  obtain ⟨name, indices⟩ := target
  rw [Designator.spelling] at h
  have hname := (name.isWord_text hc fun word hword => h word (by simp [hword])).1
  cases indices with
  | nil => simpa [Designator.text, indicesText] using hplain _ hname
  | cons index others =>
    rw [indicesSpelling] at h
    have hindex := index.nested hc fun word hword => h word (by simp [hword])
    have hothers := indicesNested hc others fun word hword => h word (by simp [hword])
    have hbehind := (InLine.plain "]" (by decide)).append ((InLine.of_nested hothers).append hrest)
    have hinside := (InLine.of_nested hindex).append hbehind
    have hsettles : Settles line .nothing
        ((mangle (c.owner name) name.own).toList ++
          ("[".toList ++ ((index.text c).toList ++ ("]".toList ++
          ((indicesText c others).toList ++ rest))))) :=
      settles_name [.opening .square] (by decide) rfl (by decide)
        (fun name more => by simpa using hindexed name more) hinside
        hname
    simpa [Designator.text, indicesText] using hsettles

/-- The arguments of a call, up to the end of its line. -/
theorem settles_arguments
    (hc : c.Legible)
    (arguments : List Expression)
    (h : ∀ word ∈ argumentsSpelling arguments, word.Legible)
    (name : String) :
    Settles [.word name, .opening .round] .nothing ((argumentsText c arguments).toList ++
      ");".toList) := by
  have hend : InLine ");".toList := .plain _ (by decide)
  cases arguments with
  | nil =>
    rw [argumentsText]
    have hclosed : Settles [.word name, .opening .round] .nothing (")".toList ++ ";".toList) :=
      .scan [.closing .round] (by decide) rfl (.of_forall (fun _ => rfl) rfl (.plain _ (by decide)))
    exact hclosed
  | cons argument others =>
    cases others with
    | nil =>
      rw [argumentsSpelling] at h
      rw [argumentsText]
      exact argument.settles hc h (fun _ => rfl) (fun _ => rfl) hend
    | cons next others =>
      rw [argumentsSpelling] at h
      · have hothers :=
          argumentsNested hc (next :: others) fun word hword => h word (by simp [hword])
        have hbehind :=
          (InLine.plain ", " (by decide)).append ((InLine.of_nested hothers).append hend)
        have hsettles : Settles [.word name, .opening .round] .nothing _ :=
          argument.settles hc (fun word hword => h word (by simp [hword])) (fun _ => rfl)
            (fun _ => rfl) hbehind
        rw [argumentsText]
        · simpa using hsettles
        · simp
      · simp

/-! ### Statements -/

/-- The first line of a statement with a condition. -/
theorem Expression.brings_condition
    (hc : c.Legible)
    (condition : Expression)
    (front keyword : String)
    (hfront : '\n' ∉ front.toList)
    (hscan : scan .nothing front.toList = ([.word keyword, .opening .round], .nothing))
    (h : ∀ word ∈ condition.spelling, word.Legible) :
    Brings (front ++ condition.text c ++ ") \x7b\n").toList [] := by
  have hcondition : Settles [.word keyword, .opening .round] .nothing _ :=
    condition.settles hc h (fun _ => rfl) (fun _ => rfl) (InLine.plain ") \x7b" (by decide))
  have hline : Settles [] .nothing _ := .scan _ hfront hscan hcondition
  simpa using hline.brings

/-- The line that counts a variable. -/
theorem Counter.quiet
    (hc : c.Legible)
    (counter : Counter)
    (target : Designator)
    (step : Option Expression)
    (htarget : ∀ word ∈ target.spelling, word.Legible)
    (h : ∀ word ∈ stepSpelling step, word.Legible) :
    Brings (target.text c ++ counter.text c step ++ ";\n").toList [] := by
  cases step with
  | none =>
    have hline : ∀ sign : Char, sign = '+' ∨ sign = '-' →
        Settles [] .nothing ((target.text c).toList ++ [sign, sign, ';']) := by
      intro sign hsign
      refine target.settles hc htarget (fun _ _ => rfl)
        (fun name hname => settles_counted hsign hname) ?_
      obtain rfl | rfl := hsign
      · exact .plain "++;" (by decide)
      · exact .plain "--;" (by decide)
    cases counter with
    | increase => simpa [Counter.text, Counter.byOne] using (hline '+' (Or.inl rfl)).brings
    | decrease => simpa [Counter.text, Counter.byOne] using (hline '-' (Or.inr rfl)).brings
  | some step =>
    have hstep := step.nested hc fun word hword => h word (by simp [stepSpelling, hword])
    have hbehind := (InLine.of_nested hstep).append (.plain ";" (by decide))
    have hline : Settles [] .nothing
        ((target.text c).toList ++
          (counter.byStep.toList ++ ((step.text c).toList ++ ";".toList))) := by
      refine target.settles hc htarget (fun _ _ => rfl) (fun name hname => ?_) ?_
      · cases counter with
        | increase =>
          exact settles_name [.other "+="] (by decide) rfl (by decide)
            (fun _ _ => rfl) hbehind hname
        | decrease =>
          exact settles_name [.other "-="] (by decide) rfl (by decide)
            (fun _ _ => rfl) hbehind hname
      · have hby : InLine counter.byStep.toList := by cases counter <;> exact .plain _ (by decide)
        exact hby.append hbehind
    simpa [Counter.text] using hline.brings

mutual

/-- The lines of a statement define and declare nothing. -/
theorem Statement.quiet (hc : c.Legible) :
    ∀ statement : Statement, (∀ word ∈ statement.spelling, word.Legible) →
      Brings (statement.text c).toList []
  | .assignment target value, h => by
    rw [Statement.spelling] at h
    have hvalue := value.nested hc fun word hword => h word (by simp [hword])
    have hbehind := (InLine.of_nested hvalue).append (.plain ";" (by decide))
    have hline : Settles [] .nothing _ :=
      target.settles hc (fun word hword => h word (by simp [hword])) (fun _ _ => rfl)
      (fun name hname => settles_name [.other "="] (by decide) (show scan .nothing " = ".toList = _
        from rfl) (by decide)
        (fun _ _ => rfl) hbehind hname) ((InLine.plain " = " (by decide)).append hbehind)
    simpa [Statement.text] using hline.brings
  | .copy target literal, h => by
    rw [Statement.spelling] at h
    have hliteral : IsQuoted literal.toList := h (.stringLiteral, literal) (by simp)
    have hbehind := (InLine.of_isQuoted hliteral).append (.plain ");" (by decide))
    have htarget : Settles [.word "strcpy", .opening .round] .nothing _ :=
      target.settles hc (fun word hword => h word (by simp [hword])) (fun _ _ => rfl)
        (fun name hname => settles_name [.comma] (by decide) (show scan .nothing ", ".toList = _
          from rfl) (by decide)
          (fun _ _ => rfl) hbehind hname) ((InLine.plain ", " (by decide)).append hbehind)
    have hline : Settles [] .nothing _ :=
      .scan _ (by decide) (show scan .nothing "strcpy(".toList = _ from rfl) htarget
    simpa [Statement.text] using hline.brings
  | .call target arguments, h => by
    rw [Statement.spelling] at h
    have hwords : ∀ word ∈ argumentsSpelling arguments, word.Legible :=
      fun word hword => h word (by simp [hword])
    have harguments := argumentsNested hc arguments hwords
    have hinside :=
      (InLine.plain "(" (by decide)).append
        ((InLine.of_nested harguments).append (.plain ");" (by decide)))
    have hline : Settles [] .nothing _ :=
      target.settles hc (fun word hword => h word (by simp [hword])) (fun _ _ => rfl)
      (fun name hname => .word hname (breaks_append _ (by decide))
        (.scan [.opening .round] (by decide) rfl (settles_arguments hc arguments hwords _))) hinside
    simpa [Statement.text] using hline.brings
  | .bareCall target, h => by
    rw [Statement.spelling] at h
    have hline : Settles [] .nothing _ := target.settles hc h (fun _ _ => rfl)
      (fun name hname => settles_name [.opening .round,
        .closing .round] (by decide) (show scan .nothing "()".toList = _ from rfl)
        (by decide) (fun _ _ => rfl) (.plain ";" (by decide)) hname) (.plain "();" (by decide))
    simpa [Statement.text] using hline.brings
  | .choice condition body others otherwise, h => by
    rw [Statement.spelling] at h
    have hline :=
      condition.brings_condition hc "if (" "if" (by decide) rfl fun word hword =>
        h word (by simp [hword])
    have hbody := bodyQuiet hc body fun word hword => h word (by simp [hword])
    have hbranches := branchesQuiet hc others fun word hword => h word (by simp [hword])
    have hotherwise := otherwiseQuiet hc otherwise fun word hword => h word (by simp [hword])
    have hend := brings_literal "\x7d" (by decide) rfl rfl
    simpa [Statement.text]
      using hline.append (hbody.append (hbranches.append (hotherwise.append hend)))
  | .loopWhile condition body, h => by
    rw [Statement.spelling] at h
    have hline :=
      condition.brings_condition hc "while (" "while" (by decide) rfl fun word hword =>
        h word (by simp [hword])
    have hbody := bodyQuiet hc body fun word hword => h word (by simp [hword])
    have hend := brings_literal "\x7d" (by decide) rfl rfl
    simpa [Statement.text] using hline.append (hbody.append hend)
  | .loopUntil body condition, h => by
    rw [Statement.spelling] at h
    have hbegin := brings_literal "do \x7b" (by decide) rfl rfl
    have hbody := bodyQuiet hc body fun word hword => h word (by simp [hword])
    have hcondition := condition.nested hc fun word hword => h word (by simp [hword])
    have hinside := (InLine.of_nested hcondition).append (.plain "));" (by decide))
    have hline := settles_closing ((InLine.plain "while (!(" (by decide)).append hinside)
    simpa [Statement.text] using hbegin.append (hbody.append hline.brings)
  | .result none, _ => by
    rw [Statement.text]
    exact brings_literal "return;" (by decide) rfl rfl
  | .result (some value), h => by
    rw [Statement.spelling] at h
    have hvalue : Settles [.word "return"] .nothing _ :=
      value.settles hc (fun word hword => h word (by simp [hword])) (fun _ => rfl)
        (fun _ => rfl) (InLine.plain ";" (by decide))
    have hline : Settles [] .nothing _ :=
      .scan _ (by decide) (show scan .nothing "return ".toList = _ from rfl) hvalue
    simpa [Statement.text] using hline.brings
  | .count counter target step, h => by
    rw [Statement.spelling] at h
    have hline :=
      counter.quiet hc target step (fun word hword => h word (by simp [hword])) fun word hword =>
        h word (by simp [hword])
    simpa [Statement.text] using hline
  | .assertion condition, h => by
    rw [Statement.spelling] at h
    have hcondition := condition.nested hc fun word hword => h word (by simp [hword])
    have hbehind := (InLine.of_nested hcondition).append (.plain ")) abort();" (by decide))
    have hline : Settles [] .nothing _ :=
      .scan [.word "if", .opening .round, .bang, .opening .round] (by decide)
        (show scan .nothing "if (!(".toList = _ from rfl)
        (.of_forall (fun _ => rfl) rfl hbehind)
    simpa [Statement.text] using hline.brings
  | .jump jump, _ => by
    rw [Statement.text]
    cases jump with
    | behind => exact brings_literal "break;" (by decide) rfl rfl
    | next => exact brings_literal "continue;" (by decide) rfl rfl
  | .empty, _ => by
    rw [Statement.text]
    exact .nil

theorem bodyQuiet (hc : c.Legible) :
    ∀ body : List (Statement × Bool), (∀ word ∈ bodySpelling body, word.Legible) →
      Brings (bodyText c body).toList []
  | [], _ => by
    rw [bodyText]
    exact .nil
  | (statement, semicolon) :: others, h => by
    rw [bodySpelling] at h
    have hstatement := statement.quiet hc fun word hword => h word (by simp [hword])
    have hothers := bodyQuiet hc others fun word hword => h word (by simp [hword])
    simpa [bodyText] using hstatement.append hothers

theorem branchesQuiet (hc : c.Legible) :
    ∀ others : List (Expression × List (Statement × Bool)),
      (∀ word ∈ branchesSpelling others, word.Legible) → Brings (branchesText c others).toList []
  | [], _ => by
    rw [branchesText]
    exact .nil
  | (condition, body) :: others, h => by
    rw [branchesSpelling] at h
    have hcondition := condition.nested hc fun word hword => h word (by simp [hword])
    have hinside := (InLine.of_nested hcondition).append (.plain ") \x7b" (by decide))
    have hline := settles_closing ((InLine.plain "else if (" (by decide)).append hinside)
    have hbody := bodyQuiet hc body fun word hword => h word (by simp [hword])
    have hothers := branchesQuiet hc others fun word hword => h word (by simp [hword])
    simpa [branchesText] using hline.brings.append (hbody.append hothers)

theorem otherwiseQuiet (hc : c.Legible) :
    ∀ otherwise : Option (List (Statement × Bool)),
      (∀ word ∈ otherwiseSpelling otherwise, word.Legible) →
      Brings (otherwiseText c otherwise).toList []
  | none, _ => by
    rw [otherwiseText]
    exact .nil
  | some body, h => by
    rw [otherwiseSpelling] at h
    have hline := brings_literal "\x7d else \x7b" (by decide) rfl rfl
    have hbody := bodyQuiet hc body fun word hword => h word (by simp [hword])
    simpa [otherwiseText] using hline.append hbody

end

end Grammar
end Oberon
