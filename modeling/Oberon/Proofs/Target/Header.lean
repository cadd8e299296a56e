import Oberon.Proofs.Target.Lexeme

/-!
# Self-contained headers

The lines of a C header as lexemes, with the names that each line declares and those that it uses.

    #define name text          declares the name
    extern type name ...;      declares the name, and in a prototype the parameters
    #ifndef name               asks for the name without using it

**Scope.**  What a line declares is known from that line on, but the parameters of a prototype are
known in the prototype only. `DeclaredBeforeUse` says this of any list of things that declare and
use names.

A header is self-contained for a module if no line uses a name of the module that is not known
there.  Names of other modules and of the standard library come from elsewhere.
-/

namespace Oberon
namespace Target

/-! ### Lines -/

namespace Lexeme

/-- Whether a newline ends the pending lexeme; a literal runs on. -/
def Pending.endsWithLine : Pending → Bool
  | .quote _ _ => false
  | _ => true

/-- The lexemes of each line of a text, behind the lexemes that its first line begins with. -/
def linesFrom : List Lexeme → Pending → List Char → List (List Lexeme)
  | line, pending, [] => [line ++ finish pending]
  | line, pending, c :: rest =>
      if c = '\n' ∧ pending.endsWithLine = true then (line ++ finish pending) ::
        linesFrom [] .nothing rest
      else linesFrom (line ++ (step pending c).1) (step pending c).2 rest

/-- The lexemes of each line of a text. -/
def lines (text : List Char) : List (List Lexeme) := linesFrom [] .nothing text

example :
    lines "int a;\n\n'\n'".toList = [[word "int", word "a", other ";"], [], [quoted "'\n'"]] := by
  decide

variable {line : List Lexeme} {text more rest : List Char}

theorem linesFrom_newline :
    linesFrom line .nothing ("\n".toList ++ rest) = line :: linesFrom [] .nothing rest := by
  simp [linesFrom, Pending.endsWithLine, finish]

theorem linesFrom_cons
    {pending : Pending} {c : Char} (hc : c ≠ '\n') :
    linesFrom line pending (c :: rest) =
      linesFrom (line ++ (step pending c).1) (step pending c).2 rest := by
  simp [linesFrom, hc]

/-- The lexemes that a text finishes behind a pending one, and what is pending behind the text. -/
def scan : Pending → List Char → List Lexeme × Pending
  | pending, [] => ([], pending)
  | pending, c :: rest =>
    ((step pending c).1 ++ (scan (step pending c).2 rest).1, (scan (step pending c).2 rest).2)

theorem linesFrom_scan {pending : Pending} (htext : '\n' ∉ text) :
    linesFrom line pending (text ++ rest) =
      linesFrom (line ++ (scan pending text).1) (scan pending text).2 rest := by
  induction text generalizing line pending with
  | nil => simp [scan]
  | cons c text ih =>
    rw [List.mem_cons, not_or] at htext
    rw [List.cons_append, linesFrom_cons (Ne.symm htext.1), ih htext.2, List.append_assoc]
    rfl

/-- A text inside a line with nothing pending behind it. -/
theorem linesFrom_append {text : String} (lexemes : List Lexeme) (htext : '\n' ∉ text.toList)
    (h : scan .nothing text.toList = (lexemes, .nothing)) :
    linesFrom line .nothing (text.toList ++ rest) = linesFrom (line ++ lexemes) .nothing rest := by
  rw [linesFrom_scan htext, h]

theorem lexFrom_eq_scan (pending : Pending) (text : List Char) :
    lexFrom pending text = (scan pending text).1 ++ finish (scan pending text).2 := by
  induction text generalizing pending with
  | nil => rfl
  | cons c text ih => rw [lexFrom, ih, scan, List.append_assoc]

/-- A text at the end of a line. -/
theorem linesFrom_line
    {text : String}
    (htext : '\n' ∉ text.toList)
    (h : (scan .nothing text.toList).2.endsWithLine = true) :
    linesFrom line .nothing (text.toList ++ ("\n".toList ++ rest)) =
      (line ++ lex text.toList) :: linesFrom [] .nothing rest := by
  have hnewline : "\n".toList ++ rest = '\n' :: rest := rfl
  rw [linesFrom_scan htext, hnewline, linesFrom, if_pos ⟨rfl, h⟩, lex, lexFrom_eq_scan,
    List.append_assoc]

/-- The lines of texts that are a line each. -/
theorem linesFrom_join {ι : Type} {things : List ι} {text : ι → String} {lexemes : ι → List Lexeme}
    (h : ∀ thing ∈ things, ∀ rest, linesFrom [] .nothing ((text thing).toList ++ rest) =
      lexemes thing :: linesFrom [] .nothing rest) :
    linesFrom [] .nothing ((String.join (things.map text)).toList ++ rest) =
      things.map lexemes ++ linesFrom [] .nothing rest := by
  induction things with
  | nil => simp
  | cons thing things ih =>
    rw [List.map_cons, String.join_cons, String.toList_append, List.append_assoc,
      h thing List.mem_cons_self, ih fun other hother => h other (List.mem_cons_of_mem _ hother)]
    rfl

theorem linesFrom_word_append (h : runsOn text more = true) :
    linesFrom line (.word text) (more ++ rest) = linesFrom line (.word (text ++ more)) rest := by
  induction more generalizing text with
  | nil => simp
  | cons c more ih =>
    rw [runsOn, Bool.and_eq_true] at h
    have hc : c ≠ '\n' := by
      rintro rfl
      rw [continues_of_mem_breaking text (by decide)] at h
      cases h.1
    rw [List.cons_append, linesFrom_cons hc]
    simp only [step, h.1, if_true, List.append_nil]
    rw [ih h.2, List.append_assoc, List.singleton_append]

theorem linesFrom_word_of_breaks (h : Breaks rest) :
    linesFrom line (.word text) rest =
      linesFrom (line ++ [word (String.ofList text)]) .nothing rest := by
  cases rest with
  | nil => simp [linesFrom, finish]
  | cons c rest =>
    have hstop : continues text c = false := continues_of_mem_breaking text (h c (by simp))
    by_cases hc : c = '\n'
    · subst hc
      simp [linesFrom, Pending.endsWithLine, finish]
    · rw [linesFrom_cons hc, linesFrom_cons hc]
      simp [step, hstop, after]

/-- A word that may go on behind the text. -/
theorem linesFrom_pending_word (hword : IsWord text) :
    linesFrom line .nothing (text ++ rest) = linesFrom line (.word text) rest := by
  obtain ⟨c, more, rfl, hc, hmore⟩ := hword
  have hblank : ¬ (c = ' ' ∨ c = '\n' ∨ c = '\t') := by
    rintro (rfl | rfl | rfl)
    all_goals cases hc
  have hnewline : c ≠ '\n' := fun h => hblank (by simp [h])
  rw [List.cons_append, linesFrom_cons hnewline]
  simp only [step, begin, if_neg hblank, if_pos hc, List.append_nil]
  rw [linesFrom_word_append hmore, List.singleton_append]

/-- A word in front of something that ends it. -/
theorem linesFrom_word (hword : IsWord text) (hrest : Breaks rest) :
    linesFrom line .nothing (text ++ rest) =
      linesFrom (line ++ [word (String.ofList text)]) .nothing rest := by
  rw [linesFrom_pending_word hword, linesFrom_word_of_breaks hrest]

theorem linesFrom_quote_append
    {mark : Char}
    (line : List Lexeme)
    (text rest : List Char)
    (h : ∀ c ∈ more, c ≠ mark) :
    linesFrom line (.quote mark text) (more ++ mark :: rest) =
      linesFrom (line ++ [quoted (String.ofList (text ++ more ++ [mark]))]) .nothing rest := by
  induction more generalizing text with
  | nil => simp [linesFrom, Pending.endsWithLine, step]
  | cons c more ih =>
    have hc : c ≠ mark := h c (by simp)
    rw [List.cons_append, linesFrom]
    simp only [Pending.endsWithLine, Bool.false_eq_true, and_false, if_false, step, if_neg hc,
      List.append_nil]
    rw [ih _ fun d hd => h d (by simp [hd])]
    simp

/-- A literal, which may go over several lines of the text. -/
theorem linesFrom_quoted
    {mark : Char} (hmark : mark = '"' ∨ mark = '\'') (h : ∀ c ∈ more, c ≠ mark) :
    linesFrom line .nothing (mark :: more ++ [mark] ++ rest) =
      linesFrom (line ++ [quoted (String.ofList (mark :: more ++ [mark]))]) .nothing rest := by
  have hbegin : begin mark = ([], .quote mark [mark]) ∧ mark ≠ '\n' := by
    obtain rfl | rfl := hmark
    all_goals exact ⟨rfl, by decide⟩
  rw [List.append_assoc, List.cons_append, linesFrom_cons hbegin.2]
  simp only [step, hbegin.1, List.append_nil]
  have hquote := linesFrom_quote_append line [mark] rest h
  simpa using hquote

end Lexeme

/-! ### Declarations -/

open Lexeme

/-- The words of a list of lexemes. -/
def wordsIn : List Lexeme → List String
  | [] => []
  | .word text :: rest => text :: wordsIn rest
  | _ :: rest => wordsIn rest

@[simp] theorem wordsIn_append (first second : List Lexeme) :
    wordsIn (first ++ second) = wordsIn first ++ wordsIn second := by
  induction first with
  | nil => rfl
  | cons lexeme first ih => cases lexeme <;> simp [wordsIn, ih]

/-- The names that stand directly behind a type: those behind a word or an asterisk. -/
def namesBehindTypes : Bool → List Lexeme → List String
  | _, [] => []
  | behind, .word text :: rest =>
    if behind then text :: namesBehindTypes true rest else namesBehindTypes true rest
  | _, .binary .times :: rest => namesBehindTypes true rest
  | _, _ :: rest => namesBehindTypes false rest

/-- No name stands directly behind the lexeme. -/
def Lexeme.detaches : Lexeme → Bool
  | .word _ => false
  | .binary .times => false
  | _ => true

theorem namesBehindTypes_cons
    {lexeme : Lexeme}
    (h : lexeme.detaches = true)
    (behind : Bool)
    (rest : List Lexeme) :
    namesBehindTypes behind (lexeme :: rest) = namesBehindTypes false rest := by
  unfold Lexeme.detaches at h
  split at h
  · cases h
  · cases h
  · rename_i hword htimes
    exact namesBehindTypes.eq_4 behind lexeme rest hword htimes

/-- The names that a line declares. -/
def declaredBy : List Lexeme → List String
  | .other sign :: .word directive :: .word name :: _ =>
    if sign = "#" ∧ directive = "define" then [name] else []
  | .word storage :: rest => if storage = "extern" then namesBehindTypes false rest else []
  | _ => []

/-- The names that a line uses, those that it declares among them. -/
def usedBy (line : List Lexeme) : List String :=
  if line.take 2 = [.other "#", .word "ifndef"] then [] else wordsIn line

/-- The name has the form of a name of the module. -/
def OfModule (module name : String) : Prop := (module ++ "_").toList <+: name.toList

instance (module name : String) :
    Decidable (OfModule module name) :=
  inferInstanceAs (Decidable (_ <+: _))

/--
Every name is used where it is known: each thing declares names for itself, and the first of them
for those behind it.
-/
def DeclaredBeforeUse {ι : Type} (declared used : ι → List String) : List String → List ι → Prop
  | _, [] => True
  | known, first :: rest =>
      (∀ name ∈ used first, name ∈ known ∨ name ∈ declared first) ∧
        DeclaredBeforeUse declared used (known ++ (declared first).take 1) rest

namespace DeclaredBeforeUse

variable {ι : Type} {declared used : ι → List String}

instance decidable (declared used : ι → List String) :
    (known : List String) →
    (things : List ι) →
    Decidable (DeclaredBeforeUse declared used known things)
  | _, [] => isTrue trivial
  | known, first :: rest =>
      have := decidable declared used (known ++ (declared first).take 1) rest
      inferInstanceAs (Decidable (_ ∧ _))

theorem append_iff {known : List String} {first second : List ι} :
    DeclaredBeforeUse declared used known (first ++ second) ↔
      DeclaredBeforeUse declared used known first ∧
      DeclaredBeforeUse declared used (known ++ first.flatMap fun thing => (declared thing).take 1)
        second := by
  induction first generalizing known with
  | nil => simp [DeclaredBeforeUse]
  | cons thing first ih => simp [DeclaredBeforeUse, ih, and_assoc]

/-- Things that only use what they declare themselves may stand anywhere. -/
theorem of_subset
    {known : List String}
    {things : List ι}
    (h : ∀ thing ∈ things, used thing ⊆ declared thing) :
    DeclaredBeforeUse declared used known things := by
  induction things generalizing known with
  | nil => trivial
  | cons thing things ih =>
    exact ⟨fun name hname => Or.inr (h thing (by simp) hname),
      ih fun other hother => h other (by simp [hother])⟩

/-- Renaming all names by an injection changes nothing. -/
theorem map_iff
    {κ : Type}
    {line : ι → κ}
    {rename : String → String}
    {known : List String}
    {things : List ι}
    {declaredThere usedThere : κ → List String}
    (hrename : Function.Injective rename)
    (hdeclared : ∀ thing ∈ things, declaredThere (line thing) = (declared thing).map rename)
    (hused : ∀ thing ∈ things,
      ∀ name, name ∈ usedThere (line thing) ↔ name ∈ (declared thing ++ used thing).map rename) :
    DeclaredBeforeUse declaredThere usedThere (known.map rename) (things.map line) ↔
      DeclaredBeforeUse declared used known things := by
  induction things generalizing known with
  | nil => simp [DeclaredBeforeUse]
  | cons thing things ih =>
    have hfirst : (∀ name ∈ usedThere (line thing), name ∈ known.map rename ∨
          name ∈ declaredThere (line thing)) ↔
        ∀ name ∈ used thing, name ∈ known ∨ name ∈ declared thing := by
      simp only [hused thing (by simp), hdeclared thing (by simp), List.forall_mem_map,
        List.mem_map_of_injective hrename,
        List.forall_mem_append]
      exact ⟨fun h => h.2, fun h => ⟨fun name hname => Or.inr hname, h⟩⟩
    have hrest :=
      @ih (known ++ (declared thing).take 1)
        (fun other hother => hdeclared other (by simp [hother]))
      fun other hother => hused other (by simp [hother])
    rw [List.map_cons, DeclaredBeforeUse, DeclaredBeforeUse, hfirst, hdeclared thing (by simp),
      ← List.map_take, ← List.map_append, hrest]

end DeclaredBeforeUse

/-- No line of the text uses a name of the module that is not known there. -/
def SelfContained (module text : String) : Prop :=
  DeclaredBeforeUse declaredBy (fun line => (usedBy line).filter (OfModule module ·)) []
    (lines text.toList)

instance (module text : String) :
    Decidable (SelfContained module text) :=
  inferInstanceAs (Decidable (DeclaredBeforeUse ..))

example : SelfContained "M" "#define\tM_n\t3\nextern char M_f(int M_x)[M_n];\n" := by decide

example : ¬ SelfContained "M" "extern char M_f(int M_n);\nextern char M_a[M_n];\n" := by decide

end Target
end Oberon
