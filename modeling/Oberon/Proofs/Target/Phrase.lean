import Oberon.Proofs.Target.Legible

/-!
# The phrases of C expressions

Which texts are read as which trees, put together from smaller ones as the grammar of C puts phrases
together:

primary    := name | number | literal | ( expression ) | primary [ expression ] | primary (
arguments ) operand    := primary | ! operand | - operand | ( type ) operand expression := operand
{operator operand}

A phrase is read alike wherever it stands, provided that a character that ends words, or nothing,
follows it.
-/

namespace Oberon
namespace Target

open Reader

/-- The text is read in the place of an operand, with nothing in front of it. -/
structure ReadAsPrimary (text : String) (tree : Tree) : Prop where
  opens : ∃ c rest, text.toList = c :: rest ∧ c ≠ '='
  run : ∀ (line : Line) (outer : List (Opening × Line)) (rest : List Char),
    line.operand = none → Lexeme.Breaks rest →
      Reader.run ⟨line, outer⟩ (text.toList ++ rest) =
        Reader.run ⟨{ line with operand := some tree }, outer⟩ rest

/-- The text is read in the place of an operand, with operators in front of it. -/
structure ReadAsOperand (text : String) (tree : Tree) : Prop where
  opens : ∃ c rest, text.toList = c :: rest ∧ c ≠ '='
  run : ∀ (line : Line) (outer : List (Opening × Line)) (rest : List Char),
    line.operand = none → Lexeme.Breaks rest →
      ∃ (before : List Unary) (operand : Tree), before.foldr .unary operand = tree ∧
        Reader.run ⟨line, outer⟩ (text.toList ++ rest) =
          Reader.run ⟨{ line with before := line.before ++ before, operand := some operand },
            outer⟩ rest

/-- The text is read as an operator between two operands. -/
def ReadAsBinary (text : String) (op : Binary) : Prop :=
  text.toList.head? = some ' ' ∧
  ∀ rest, Lexeme.lex (text.toList ++ rest) = .binary op :: Lexeme.lex rest

/-- The text is read as operands, each behind its operator. -/
inductive ReadAsLinks : String → Links → Prop
  | nil : ReadAsLinks "" []
  | cons {between text more : String} {op : Binary} {tree : Tree} {links : Links} :
      ReadAsBinary between op → ReadAsOperand text tree → ReadAsLinks more links →
        ReadAsLinks (between ++ text ++ more) ((op, tree) :: links)

/-- The text is read as a whole line. -/
def ReadAsExpression (text : String) (tree : Tree) : Prop :=
  ∀ (outer : List (Opening × Line)) (rest : List Char), Lexeme.Breaks rest →
    ∃ line : Line, line.tree? = some tree ∧
      Reader.run ⟨{}, outer⟩ (text.toList ++ rest) = Reader.run ⟨line, outer⟩ rest

/-- The text is read as one or more arguments. -/
inductive ReadAsArguments : String → List Tree → Prop
  | one {text : String} {tree : Tree} : ReadAsExpression text tree → ReadAsArguments text [tree]
  | more {text others : String} {tree : Tree} {trees : List Tree} :
      ReadAsExpression text tree → ReadAsArguments others trees →
        ReadAsArguments (text ++ ", " ++ others) (tree :: trees)

/-- A text that is read as an expression has the tree of that expression. -/
theorem ReadAsExpression.read_eq {text : String} {tree : Tree} (h : ReadAsExpression text tree) :
    read text = some tree := by
  obtain ⟨line, htree, hrun⟩ := h [] [] (by simp [Lexeme.Breaks])
  rw [List.append_nil] at hrun
  rw [read]
  rw [hrun]
  simpa [Reader.run, Lexeme.lex, Lexeme.lexFrom, Lexeme.finish, Reader.finish] using htree

/-! ### Primaries -/

namespace ReadAsPrimary

variable {text : String} {tree : Tree}

theorem ofOperand (h : IsOperand text.toList) : ReadAsPrimary text (.leaf text) := by
  obtain ⟨hword, htype⟩ | ⟨mark, more, hmark, hmore, htext⟩ := h
  · rw [String.ofList_toList] at htype
    constructor
    · obtain ⟨c, rest, htext, hc, -⟩ := hword
      refine ⟨c, rest, htext, ?_⟩
      rintro rfl
      cases hc
    · intro line outer rest hline hrest
      exact run_word hword htype hrest hline
  · constructor
    · refine ⟨mark, more ++ [mark], by rw [htext]; rfl, ?_⟩
      obtain rfl | rfl := hmark <;> decide
    · intro line outer rest hline hrest
      have hrun := run_quoted rest outer hmark hmore hline
      rw [← htext, String.ofList_toList] at hrun
      exact hrun

theorem ofWord (hword : Lexeme.IsWord text.toList) (htype : text ∉ typeNames) :
    ReadAsPrimary text (.leaf text) :=
  ofOperand (Or.inl ⟨hword, by rwa [String.ofList_toList]⟩)

theorem group (h : ReadAsExpression text tree) : ReadAsPrimary ("(" ++ text ++ ")") tree := by
  constructor
  · exact ⟨'(', (text ++ ")").toList, by simp, by decide⟩
  · intro line outer rest hline hrest
    obtain ⟨inner, htree, hrun⟩ :=
      h ((.group, line) :: outer) (')' :: rest) (Lexeme.breaks_cons rest (by decide))
    have htext : ("(" ++ text ++ ")").toList ++ rest = '(' :: (text.toList ++ ')' :: rest) := by
      simp
    rw [htext, run_group hline, hrun, run_close_group htree]

theorem item {index : String} {indexTree : Tree} (h : ReadAsPrimary text tree)
    (hindex : ReadAsExpression index indexTree) :
    ReadAsPrimary (text ++ "[" ++ index ++ "]") (.item tree indexTree) := by
  constructor
  · obtain ⟨c, rest, htext, hc⟩ := h.opens
    exact ⟨c, rest ++ ("[" ++ index ++ "]").toList, by simp [htext], hc⟩
  · intro line outer rest hline hrest
    have htext : (text ++ "[" ++ index ++ "]").toList ++ rest =
        text.toList ++ '[' :: (index.toList ++ ']' :: rest) := by simp
    rw [htext, h.run line outer _ hline (Lexeme.breaks_cons _ (by decide)), run_index tree rfl]
    obtain ⟨inner, htree, hrun⟩ :=
      hindex ((.index, { line with operand := some tree }) :: outer) (']' :: rest)
        (Lexeme.breaks_cons rest (by decide))
    rw [hrun, run_close_index htree rfl]

theorem bareCall (h : ReadAsPrimary text tree) :
    ReadAsPrimary (text ++ "()") (tree.callWith []) := by
  constructor
  · obtain ⟨c, rest, htext, hc⟩ := h.opens
    exact ⟨c, rest ++ ['(', ')'], by simp [htext], hc⟩
  · intro line outer rest hline hrest
    have htext : (text ++ "()").toList ++ rest = text.toList ++ '(' :: ')' :: rest := by simp
    rw [htext, h.run line outer _ hline (Lexeme.breaks_cons _ (by decide)), run_arguments tree rfl,
      run_close_arguments [] (by simp [arguments?]) rfl]

/-- Arguments go on behind the ones that are already read. -/
theorem run_arguments_text
    {arguments : String}
    {trees : List Tree}
    (h : ReadAsArguments arguments trees)
    (done : List Tree)
    (around : Line)
    (outer : List (Opening × Line))
    (rest : List Char) :
    ∃ (read : List Tree) (line : Line),
      arguments? read line = some (done ++ trees) ∧
      Reader.run ⟨{}, (.arguments done, around) :: outer⟩ (arguments.toList ++ ')' :: rest) =
        Reader.run ⟨line, (.arguments read, around) :: outer⟩ (')' :: rest) := by
  induction h generalizing done with
  | @one text tree htext =>
    obtain ⟨line, htree, hrun⟩ :=
      htext ((.arguments done, around) :: outer) (')' :: rest) (Lexeme.breaks_cons rest (by decide))
    refine ⟨done, line, ?_, hrun⟩
    have hline : line ≠ {} := by
      rintro rfl
      cases htree
    simp [arguments?, hline, htree]
  | @more text others tree trees htext _ ih =>
    have hcomma : (text ++ ", " ++ others).toList ++ ')' :: rest =
        text.toList ++ ',' :: ' ' :: (others.toList ++ ')' :: rest) := by simp
    obtain ⟨line, htree, hrun⟩ := htext ((.arguments done, around) :: outer)
      (',' :: ' ' :: (others.toList ++ ')' :: rest)) (Lexeme.breaks_cons _ (by decide))
    obtain ⟨read, last, hread, hothers⟩ := ih (done ++ [tree])
    refine ⟨read, last, by simpa using hread, ?_⟩
    rw [hcomma, hrun, run_comma htree, hothers]

theorem call {arguments : String} {trees : List Tree} (h : ReadAsPrimary text tree)
    (harguments : ReadAsArguments arguments trees) :
    ReadAsPrimary (text ++ "(" ++ arguments ++ ")") (tree.callWith trees) := by
  constructor
  · obtain ⟨c, rest, htext, hc⟩ := h.opens
    exact ⟨c, rest ++ ("(" ++ arguments ++ ")").toList, by simp [htext], hc⟩
  · intro line outer rest hline hrest
    have htext : (text ++ "(" ++ arguments ++ ")").toList ++ rest =
        text.toList ++ '(' :: (arguments.toList ++ ')' :: rest) := by simp
    rw [htext, h.run line outer _ hline (Lexeme.breaks_cons _ (by decide)),
      Reader.run_arguments tree rfl]
    obtain ⟨read, last, hread, hrun⟩ :=
      run_arguments_text harguments [] { line with operand := some tree } outer rest
    rw [hrun, run_close_arguments _ hread rfl]
    rfl

theorem operand (h : ReadAsPrimary text tree) : ReadAsOperand text tree where
  opens := h.opens
  run line outer rest hline hrest :=
    ⟨[], tree, rfl, by simpa using h.run line outer rest hline hrest⟩

end ReadAsPrimary

/-! ### Operands and expressions -/

namespace ReadAsOperand

variable {text : String} {tree : Tree}

theorem not (h : ReadAsOperand text tree) : ReadAsOperand ("!" ++ text) (.unary .not tree) := by
  constructor
  · exact ⟨'!', text.toList, by simp, by decide⟩
  · intro line outer rest hline hrest
    obtain ⟨c, more, htext, hc⟩ := h.opens
    have hhead : (text.toList ++ rest).head? ≠ some '=' := by simpa [htext] using hc
    obtain ⟨before, operand, htree, hrun⟩ :=
      h.run { line with before := line.before ++ [.not] } outer rest hline hrest
    refine ⟨.not :: before, operand, by rw [List.foldr_cons, htree], ?_⟩
    have happend : ("!" ++ text).toList ++ rest = '!' :: (text.toList ++ rest) := by simp
    rw [happend, run_not hhead hline, hrun]
    simp

/-- A minus sign in front of parentheses. -/
theorem minus (h : ReadAsOperand ("(" ++ text) tree) :
    ReadAsOperand ("-" ++ ("(" ++ text)) (.unary .minus tree) := by
  constructor
  · exact ⟨'-', '(' :: text.toList, by simp, by decide⟩
  · intro line outer rest hline hrest
    obtain ⟨before, operand, htree, hrun⟩ :=
      h.run { line with before := line.before ++ [.minus] } outer rest hline hrest
    refine ⟨.minus :: before, operand, by rw [List.foldr_cons, htree], ?_⟩
    have happend : ("-" ++ ("(" ++ text)).toList ++ rest = '-' :: '(' :: (text.toList ++ rest) := by
      simp
    have hparen : ("(" ++ text).toList ++ rest = '(' :: (text.toList ++ rest) := by simp
    rw [hparen] at hrun
    rw [happend, run_minus hline, hrun]
    simp

theorem cast
    (type : String)
    (htype : type ∈ typeNames)
    (hword : Lexeme.IsWord type.toList)
    (h : ReadAsOperand text tree) :
    ReadAsOperand ("(" ++ type ++ ")" ++ text) (.unary (.cast type) tree) := by
  constructor
  · exact ⟨'(', (type ++ ")" ++ text).toList, by simp, by decide⟩
  · intro line outer rest hline hrest
    obtain ⟨before, operand, htree, hrun⟩ :=
      h.run { line with before := line.before ++ [.cast type] } outer rest hline hrest
    refine ⟨.cast type :: before, operand, by rw [List.foldr_cons, htree], ?_⟩
    have happend : ("(" ++ type ++ ")" ++ text).toList ++ rest =
        '(' :: type.toList ++ ')' :: (text.toList ++ rest) := by simp
    rw [happend, run_cast htype hword hline, hrun]
    simp

end ReadAsOperand

theorem readAsBinary_operator (op : Operator) : ReadAsBinary op.text (Lexeme.ofOperator op) :=
  ⟨by cases op <;> rfl, Lexeme.lex_operator op⟩

theorem readAsBinary_bitAnd : ReadAsBinary " & " .bitAnd :=
  ⟨rfl, fun _ => rfl⟩

/-- The text of links begins with a blank. -/
theorem ReadAsLinks.breaks
    {more : String}
    {links : Links}
    (h : ReadAsLinks more links)
    {rest : List Char}
    (hrest : Lexeme.Breaks rest) :
    Lexeme.Breaks (more.toList ++ rest) := by
  cases h with
  | nil => simpa using hrest
  | @cons between text others op tree links hbinary _ _ =>
    obtain ⟨hhead, -⟩ := hbinary
    cases hbetween : between.toList with
    | nil =>
      rw [hbetween] at hhead
      cases hhead
    | cons c behind =>
      rw [hbetween, List.head?_cons, Option.some.injEq] at hhead
      simp only [String.toList_append, hbetween, List.cons_append]
      exact Lexeme.breaks_cons _ (by rw [hhead]; decide)

/-- Links go on behind the chain that is already read. -/
theorem ReadAsLinks.run
    {more : String}
    {links : Links}
    (h : ReadAsLinks more links)
    {line : Line}
    {first : Tree}
    {done : Links}
    (hline : line.chain? = some (first, done))
    (outer : List (Opening × Line))
    {rest : List Char}
    (hrest : Lexeme.Breaks rest) :
    ∃ last : Line,
      last.chain? = some (first, done ++ links) ∧
      Reader.run ⟨line, outer⟩ (more.toList ++ rest) = Reader.run ⟨last, outer⟩ rest := by
  induction h generalizing line done with
  | nil => exact ⟨line, by simpa using hline, rfl⟩
  | @cons between text others op tree links hbinary htext hothers ih =>
    obtain ⟨before, operand, htree, hrun⟩ :=
      htext.run { left := some ((first, done), op) } outer (others.toList ++ rest) rfl
        (hothers.breaks hrest)
    have hnext : Line.chain?
          { left := some ((first, done), op), before := [] ++ before, operand := some operand } =
        some (first, done ++ [(op, tree)]) := by
      simp [Line.chain?, htree]
    obtain ⟨last, hlast, hbehind⟩ := ih hnext
    refine ⟨last, by simpa using hlast, ?_⟩
    have happend : (between ++ text ++ others).toList ++ rest =
        between.toList ++ (text.toList ++ (others.toList ++ rest)) := by simp
    have hstep : Reader.step ⟨line, outer⟩ (.binary op) =
        some ⟨{ left := some ((first, done), op) }, outer⟩ := by
      simp [Reader.step, Reader.binary, hline]
    rw [happend, run_of_lex (hbinary.2 _) hstep, hrun, hbehind]

/-- An operand and what is linked to it, joined by rank. -/
theorem ReadAsExpression.chain
    {text more : String}
    {tree : Tree}
    {links : Links}
    (h : ReadAsOperand text tree)
    (hmore : ReadAsLinks more links) :
    ReadAsExpression (text ++ more) (tree.joinByRank links) := by
  intro outer rest hrest
  obtain ⟨before, operand, htree, hrun⟩ :=
    h.run {} outer (more.toList ++ rest) rfl (hmore.breaks hrest)
  have hfirst : Line.chain? { before := [] ++ before, operand := some operand } =
      some (tree, []) := by
    simp [Line.chain?, htree]
  obtain ⟨last, hlast, hbehind⟩ := hmore.run hfirst outer hrest
  refine ⟨last, by simp [Line.tree?, hlast], ?_⟩
  rw [String.toList_append, List.append_assoc, hrun, hbehind]

theorem ReadAsExpression.single {text : String} {tree : Tree} (h : ReadAsOperand text tree) :
    ReadAsExpression text tree := by
  simpa using ReadAsExpression.chain h .nil

end Target
end Oberon
