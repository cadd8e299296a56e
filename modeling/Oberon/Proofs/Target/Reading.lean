import Oberon.Proofs.Target.Lexeme

/-!
# Reading C expressions

The operator tree of a C expression.  Calls and indices bind tightest, then `!`, `-` and casts in
front of an operand, then the binary operators by their rank; operators of one rank are joined from
left to right.  Parentheses leave no trace in the tree.

**Readers.**  A reader goes through the lexemes of a text once.  It holds the line that it is
reading, a chain of operands and binary operators, and the lines around it, each broken off at a
bracket.  The chain of a line is joined when the line ends.
-/

namespace Oberon
namespace Target

/-- The operators in front of an operand. -/
inductive Unary
  | not
  | minus
  | cast (type : String)
  deriving DecidableEq, Repr

/-- The operator tree of an expression. -/
inductive Tree
  | leaf (text : String)
  | unary (op : Unary) (operand : Tree)
  | binary (op : Binary) (left right : Tree)
  | item (array index : Tree)
  /-- A call without arguments. -/
  | call (callee : Tree)
  /-- A call with one more argument. -/
  | argument (call value : Tree)
  deriving DecidableEq, Repr

/-! ### Chains -/

/-- An operand, and more of them, each behind its operator. -/
abbrev Links := List (Binary × Tree)

/-- How tightly an operator binds; rank 0 is the tightest. -/
def Binary.rank : Binary → Nat
  | times | quotient | modulo => 0
  | plus | minus => 1
  | less | lessEqual | greater | greaterEqual => 2
  | equal | notEqual => 3
  | bitAnd => 4
  | and => 5
  | or => 6

/-- All ranks, the tightest first. -/
def ranks : List Nat := List.range 7

namespace Tree

/-- A call with its arguments. -/
def callWith (callee : Tree) (arguments : List Tree) : Tree :=
  arguments.foldl argument (call callee)

/-- Joins a chain from left to right. -/
def joinLeft (first : Tree) (others : Links) : Tree :=
  others.foldl (fun tree link => binary link.1 tree link.2) first

/-- Joins the operators of one rank in a chain, from left to right. -/
def joinAt (rank : Nat) : Tree → Links → Tree × Links
  | first, [] => (first, [])
  | first, (op, operand) :: others =>
      if op.rank = rank then joinAt rank (binary op first operand) others
      else (first, (op, (joinAt rank operand others).1) :: (joinAt rank operand others).2)

/-- Joins a chain rank by rank. -/
def joinByRank (first : Tree) (others : Links) : Tree :=
  (ranks.foldl (fun chain rank => joinAt rank chain.1 chain.2) (first, others)).1

theorem callWith_inj (f g : Tree) (xs ys : List Tree) :
    callWith f xs = callWith g ys ↔ f = g ∧ xs = ys := by
  induction xs using List.reverseRecOn generalizing ys with
  | nil =>
    obtain rfl | ⟨others, y, rfl⟩ := ys.eq_nil_or_concat
    · simp [callWith]
    · simp [callWith]
  | append_singleton xs x ih =>
    obtain rfl | ⟨others, y, rfl⟩ := ys.eq_nil_or_concat
    · simp [callWith]
    · have hstep := ih others
      simp only [callWith] at hstep
      simp only [callWith, List.concat_eq_append, List.foldl_append, List.foldl_cons,
        List.foldl_nil, argument.injEq, hstep, List.append_singleton_inj]
      exact and_assoc

@[simp] theorem joinLeft_nil (first : Tree) : joinLeft first [] = first := rfl

@[simp] theorem joinLeft_concat (first : Tree) (others : Links) (op : Binary) (operand : Tree) :
    joinLeft first (others ++ [(op, operand)]) = binary op (joinLeft first others) operand := by
  simp [joinLeft]

@[simp] theorem joinByRank_nil (first : Tree) : joinByRank first [] = first := rfl

@[simp] theorem joinByRank_single (first operand : Tree) (op : Binary) :
    joinByRank first [(op, operand)] = binary op first operand := by
  cases op <;> rfl

/-- A chain without an operator of the rank stays as it is. -/
theorem joinAt_of_forall_ne
    {rank : Nat} {others : Links} (first : Tree) (h : ∀ link ∈ others, link.1.rank ≠ rank) :
    joinAt rank first others = (first, others) := by
  induction others generalizing first with
  | nil => rfl
  | cons link others ih =>
    obtain ⟨op, operand⟩ := link
    have hop : op.rank ≠ rank := h (op, operand) (by simp)
    rw [joinAt, if_neg hop, ih operand fun link hlink => h link (by simp [hlink])]

/-- A chain of operators of the rank is joined altogether. -/
theorem joinAt_of_forall_eq
    {rank : Nat} {others : Links} (first : Tree) (h : ∀ link ∈ others, link.1.rank = rank) :
    joinAt rank first others = (joinLeft first others, []) := by
  induction others generalizing first with
  | nil => rfl
  | cons link others ih =>
    obtain ⟨op, operand⟩ := link
    have hop : op.rank = rank := h (op, operand) (by simp)
    rw [joinAt, if_pos hop, ih _ fun link hlink => h link (by simp [hlink])]
    rfl

/-- The operators of other ranks are left in their order. -/
theorem map_fst_joinAt (rank : Nat) (first : Tree) (others : Links) :
    (joinAt rank first others).2.map Prod.fst =
      (others.map Prod.fst).filter fun op => decide (op.rank ≠ rank) := by
  induction others generalizing first with
  | nil => rfl
  | cons link others ih =>
    obtain ⟨op, operand⟩ := link
    by_cases hop : op.rank = rank
    · rw [joinAt, if_pos hop, ih]
      simp [hop]
    · rw [joinAt, if_neg hop]
      simp [hop, ih]

/-- An operator of another rank at the end of a chain is not touched. -/
theorem joinAt_concat_of_ne
    {rank : Nat}
    {op : Binary}
    (first : Tree)
    (others : Links)
    (operand : Tree)
    (h : op.rank ≠ rank) :
    joinAt rank first (others ++ [(op, operand)]) =
      ((joinAt rank first others).1, (joinAt rank first others).2 ++ [(op, operand)]) := by
  induction others generalizing first with
  | nil => simp [joinAt, h]
  | cons link others ih =>
    obtain ⟨op', operand'⟩ := link
    by_cases hop : op'.rank = rank
    · simp only [List.cons_append, joinAt, if_pos hop, ih]
    · simp only [List.cons_append, joinAt, if_neg hop, ih]

/-! ### Chains of two ranks -/

/-- The links of a chain of other operands, each of which has a tree. -/
def links {α : Type} (f : α → Tree) (chain : List (Binary × α)) : Links :=
  chain.map fun link => (link.1, f link.2)

section Links

variable {α : Type} (f : α → Tree) (chain : List (Binary × α))

@[simp] theorem links_nil : links f [] = [] := rfl

@[simp] theorem links_cons (op : Binary) (x : α) :
    links f ((op, x) :: chain) = (op, f x) :: links f chain :=
  rfl

theorem links_concat (op : Binary) (x : α) :
    links f (chain ++ [(op, x)]) = links f chain ++ [(op, f x)] := by
  simp [links]

theorem forall_mem_links (p : Binary → Prop) :
    (∀ link ∈ links f chain, p link.1) ↔ ∀ link ∈ chain, p link.1 := by
  simp only [links, List.forall_mem_map]

theorem exists_mem_links (p : Binary → Prop) :
    (∃ link ∈ links f chain, p link.1) ↔ ∃ link ∈ chain, p link.1 := by
  simp [links]

end Links

section TwoRanks

variable {tight loose : Nat} {others : Links}

/-- The operators left over by the tighter of two ranks are of the looser one. -/
theorem rank_of_mem_joinAt
    (hranks : ∀ link ∈ others, link.1.rank = tight ∨ link.1.rank = loose)
    (first : Tree)
    {link : Binary × Tree}
    (hlink : link ∈ (joinAt tight first others).2) :
    link.1.rank = loose := by
  have hop : link.1 ∈ (joinAt tight first others).2.map Prod.fst := List.mem_map_of_mem hlink
  rw [map_fst_joinAt, List.mem_filter, List.mem_map] at hop
  obtain ⟨⟨found, hfound, heq⟩, hne⟩ := hop
  rw [← heq] at hne ⊢
  exact (hranks found hfound).resolve_left (by simpa using hne)

/-- A chain of operators of two ranks after the first `count` ranks. -/
theorem foldl_joinAt_range
    (hlt : tight < loose) (hranks : ∀ link ∈ others, link.1.rank = tight ∨ link.1.rank = loose)
    (first : Tree) (count : Nat) :
    (List.range count).foldl (fun chain rank => joinAt rank chain.1 chain.2) (first, others) =
      if count ≤ tight then (first, others)
      else if count ≤ loose then joinAt tight first others
      else (joinLeft (joinAt tight first others).1 (joinAt tight first others).2, []) := by
  induction count with
  | zero => simp
  | succ count ih =>
    rw [List.range_succ, List.foldl_append, ih, List.foldl_cons, List.foldl_nil]
    obtain hcount | rfl | hcount := Nat.lt_trichotomy count tight
    · rw [if_pos (Nat.le_of_lt hcount), if_pos (Nat.succ_le_of_lt hcount)]
      refine joinAt_of_forall_ne first fun link hlink => ?_
      obtain h | h := hranks link hlink <;> omega
    · rw [if_pos (Nat.le_refl count), if_neg (Nat.not_succ_le_self count),
        if_pos (Nat.succ_le_of_lt hlt)]
    · rw [if_neg (Nat.not_le.2 hcount), if_neg (Nat.not_le.2 (Nat.lt_succ_of_lt hcount))]
      obtain hcount' | rfl | hcount' := Nat.lt_trichotomy count loose
      · rw [if_pos (Nat.le_of_lt hcount'), if_pos (Nat.succ_le_of_lt hcount')]
        refine joinAt_of_forall_ne _ fun link hlink => ?_
        rw [rank_of_mem_joinAt hranks first hlink]
        exact Nat.ne_of_gt hcount'
      · rw [if_pos (Nat.le_refl count), if_neg (Nat.not_succ_le_self count)]
        exact joinAt_of_forall_eq _ fun link hlink => rank_of_mem_joinAt hranks first hlink
      · rw [if_neg (Nat.not_le.2 hcount'), if_neg (Nat.not_le.2 (Nat.lt_succ_of_lt hcount'))]
        rfl

/-- In a chain of operators of two ranks the tighter ones are joined first. -/
theorem joinByRank_of_two_ranks
    (hlt : tight < loose)
    (hloose : loose < 7)
    (hranks : ∀ link ∈ others, link.1.rank = tight ∨ link.1.rank = loose)
    (first : Tree) :
    joinByRank first others =
      joinLeft (joinAt tight first others).1 (joinAt tight first others).2 := by
  rw [joinByRank, ranks, foldl_joinAt_range hlt hranks, if_neg (by omega), if_neg (by omega)]

/-- A loose operator at the end of a chain is its root. -/
theorem joinByRank_concat_loose
    (hlt : tight < loose) (hloose : loose < 7)
    (hranks : ∀ link ∈ others, link.1.rank = tight ∨ link.1.rank = loose)
    {op : Binary} (hop : op.rank = loose) (first operand : Tree) :
    joinByRank first (others ++ [(op, operand)]) = binary op (joinByRank first others) operand := by
  have hall : ∀ link ∈ others ++ [(op, operand)], link.1.rank = tight ∨ link.1.rank = loose := by
    intro link hlink
    obtain hlink | hlink := List.mem_append.1 hlink
    · exact hranks link hlink
    · rw [List.mem_singleton.1 hlink]
      exact Or.inr hop
  rw [joinByRank_of_two_ranks hlt hloose hall, joinByRank_of_two_ranks hlt hloose hranks,
    joinAt_concat_of_ne first others operand (by omega), joinLeft_concat]

/-- Without a loose operator a chain is joined from left to right. -/
theorem joinByRank_of_forall_tight
    (hlt : tight < loose)
    (hloose : loose < 7)
    (htight : ∀ link ∈ others, link.1.rank = tight)
    (first : Tree) :
    joinByRank first others = joinLeft first others := by
  rw [joinByRank_of_two_ranks hlt hloose (fun link hlink => Or.inl (htight link hlink)),
    joinAt_of_forall_eq first htight, joinLeft_nil]

/-- With a loose operator in it, a chain has a loose operator at its root. -/
theorem joinByRank_of_exists_loose
    (hlt : tight < loose) (hloose : loose < 7)
    (hranks : ∀ link ∈ others, link.1.rank = tight ∨ link.1.rank = loose)
    (hexists : ∃ link ∈ others, link.1.rank = loose) (first : Tree) :
    ∃ op left right, joinByRank first others = binary op left right ∧ op.rank = loose := by
  rw [joinByRank_of_two_ranks hlt hloose hranks]
  have hne : (joinAt tight first others).2 ≠ [] := by
    intro hnil
    have hmap := map_fst_joinAt tight first others
    rw [hnil, List.map_nil] at hmap
    obtain ⟨link, hlink, hrank⟩ := hexists
    have hmem : link.1 ∈ (others.map Prod.fst).filter fun op => decide (op.rank ≠ tight) :=
      List.mem_filter.2 ⟨List.mem_map_of_mem hlink, by simpa [hrank] using (Nat.ne_of_lt hlt).symm⟩
    rw [← hmap] at hmem
    cases hmem
  obtain ⟨links, ⟨op, operand⟩, hlinks⟩ :=
    ((joinAt tight first others).2.eq_nil_or_concat).resolve_left hne
  rw [List.concat_eq_append] at hlinks
  refine ⟨op, _, operand, by rw [hlinks, joinLeft_concat], ?_⟩
  have hmem : (op, operand) ∈ (joinAt tight first others).2 := by simp [hlinks]
  exact rank_of_mem_joinAt hranks first hmem

/--
A chain of operators of two ranks is joined alike in both ways exactly if its operands are alike and
no tight operator stands behind a loose one.
-/
theorem joinByRank_eq_joinLeft_iff
    {α : Type}
    (hlt : tight < loose)
    (hloose : loose < 7)
    (f g : α → Tree)
    (chain : List (Binary × α))
    (hranks : ∀ link ∈ chain, link.1.rank = tight ∨ link.1.rank = loose)
    (first first' : Tree) :
    joinByRank first (links f chain) = joinLeft first' (links g chain) ↔
      first = first' ∧
      (∀ link ∈ chain, f link.2 = g link.2) ∧
      (chain.map Prod.fst).Pairwise fun op later => op.rank = loose → later.rank = loose := by
  -- From the last operator: it is the root of the right side, and of the left side only if it is
  -- loose or alone.
  induction chain using List.reverseRecOn with
  | nil => simp
  | append_singleton chain link ih =>
    obtain ⟨op, x⟩ := link
    have hbefore : ∀ link ∈ chain, link.1.rank = tight ∨ link.1.rank = loose :=
      fun link hlink => hranks link (by simp [hlink])
    have hlinks := (forall_mem_links f chain fun op => op.rank = tight ∨ op.rank = loose).2 hbefore
    have hmem : (∀ link ∈ chain ++ [(op, x)], f link.2 = g link.2) ↔
        (∀ link ∈ chain, f link.2 = g link.2) ∧ f x = g x := by
      simp [or_imp, forall_and]
    have hpairs : ((chain ++ [(op, x)]).map Prod.fst).Pairwise
          (fun op later => op.rank = loose → later.rank = loose) ↔
        (chain.map Prod.fst).Pairwise (fun op later => op.rank = loose → later.rank = loose) ∧
          ∀ link ∈ chain, link.1.rank = loose → op.rank = loose := by
      simp [List.pairwise_append]
    rw [hmem, hpairs]
    obtain hop | hop : op.rank = tight ∨ op.rank = loose := hranks (op, x) (by simp)
    · by_cases hexists : ∃ link ∈ chain, link.1.rank = loose
      · obtain ⟨link, hlink, hrank⟩ := hexists
        obtain ⟨root, left, right, hroot, hlooseRoot⟩ := joinByRank_of_exists_loose hlt hloose
          ((forall_mem_links f _ fun op => op.rank = tight ∨ op.rank = loose).2 hranks)
          ((exists_mem_links f _ fun op => op.rank = loose).2 ⟨link, List.mem_append_left _ hlink,
            hrank⟩) first
        constructor
        · intro heq
          rw [hroot, links_concat, joinLeft_concat, binary.injEq] at heq
          obtain ⟨rfl, -, -⟩ := heq
          omega
        · rintro ⟨-, -, -, hbehind⟩
          have hrank' := hbehind link hlink hrank
          omega
      · have htight : ∀ link ∈ chain, link.1.rank = tight := fun link hlink =>
          (hbefore link hlink).resolve_right fun hrank => hexists ⟨link, hlink, hrank⟩
        have hall : ∀ link ∈ chain ++ [(op, x)], link.1.rank = tight := by
          simpa [or_imp, forall_and, hop] using htight
        rw [joinByRank_of_forall_tight hlt hloose
          ((forall_mem_links f chain fun op => op.rank = tight).2 htight)] at ih
        rw [joinByRank_of_forall_tight hlt hloose
          ((forall_mem_links f _ fun op => op.rank = tight).2 hall),
          links_concat, links_concat, joinLeft_concat, joinLeft_concat, binary.injEq, ih hbefore]
        constructor
        · rintro ⟨-, ⟨hfirst, hlinks, hpairwise⟩, hx⟩
          exact ⟨hfirst, ⟨hlinks, hx⟩, hpairwise,
            fun link hlink hrank => absurd ⟨link, hlink, hrank⟩ hexists⟩
        · rintro ⟨hfirst, ⟨hlinks, hx⟩, hpairwise, -⟩
          exact ⟨rfl, ⟨hfirst, hlinks, hpairwise⟩, hx⟩
    · rw [links_concat, links_concat, joinLeft_concat,
        joinByRank_concat_loose hlt hloose hlinks hop, binary.injEq,
        ih hbefore]
      constructor
      · rintro ⟨-, ⟨hfirst, hlinks, hpairwise⟩, hx⟩
        exact ⟨hfirst, ⟨hlinks, hx⟩, hpairwise, fun _ _ _ => hop⟩
      · rintro ⟨hfirst, ⟨hlinks, hx⟩, hpairwise, -⟩
        exact ⟨rfl, ⟨hfirst, hlinks, hpairwise⟩, hx⟩

end TwoRanks

end Tree

/-! ### Readers -/

/-- A chain of operands that is being read. -/
structure Line where
  /-- The chain so far and the operator behind it. -/
  left : Option ((Tree × Links) × Binary) := none
  /-- The operators in front of the operand, the outermost first. -/
  before : List Unary := []
  /-- The operand, as far as it is read. -/
  operand : Option Tree := none
  deriving DecidableEq, Repr

namespace Line

/-- The chain with the operand that is being read. -/
def chain? (line : Line) : Option (Tree × Links) :=
  line.operand.map fun operand =>
    let last := line.before.foldr .unary operand
    match line.left with
    | none => (last, [])
    | some ((first, others), op) => (first, others ++ [(op, last)])

/-- The tree of a line that ends here. -/
def tree? (line : Line) : Option Tree :=
  line.chain?.map fun chain => chain.1.joinByRank chain.2

end Line

/-- What a bracket has been opened for. -/
inductive Opening
  | group
  | cast (type : String)
  | arguments (done : List Tree)
  | index
  deriving DecidableEq, Repr

/-- The line that is being read, and the lines around it. -/
structure Reader where
  line : Line := {}
  outer : List (Opening × Line) := []
  deriving DecidableEq, Repr

/-- The names of the types of C. -/
def typeNames : List String :=
  ["char", "short", "int", "long", "float", "double", "signed", "unsigned", "bool", "void"]

namespace Reader

/-- An operand that stands by itself. -/
def leaf (r : Reader) (text : String) : Option Reader :=
  match r.line.operand with
  | none => some { r with line := { r.line with operand := some (.leaf text) } }
  | some _ => none

/-- The name of a type stands in a cast only. -/
def type (r : Reader) (name : String) : Option Reader :=
  match r.outer with
  | (.group, line) :: outer => if r.line = {} then some ⟨{}, (.cast name, line) :: outer⟩ else none
  | _ => none

/-- An operator in front of an operand. -/
def unary (r : Reader) (op : Unary) : Option Reader :=
  match r.line.operand with
  | none => some { r with line := { r.line with before := r.line.before ++ [op] } }
  | some _ => none

/-- An operator between two operands; only a minus may stand in front of one. -/
def binary (r : Reader) (op : Binary) : Option Reader :=
  match r.line.chain? with
  | some chain => some { r with line := { left := some (chain, op) } }
  | none => if op = .minus then r.unary .minus else none

/-- An opening bracket, behind an operand or in its place. -/
def opening (r : Reader) : Bracket → Option Reader
  | .round =>
      match r.line.operand with
      | none => some ⟨{}, (.group, r.line) :: r.outer⟩
      | some _ => some ⟨{}, (.arguments [], r.line) :: r.outer⟩
  | .square =>
      match r.line.operand with
      | none => none
      | some _ => some ⟨{}, (.index, r.line) :: r.outer⟩

/-- The arguments of a call, of which the last may be missing if it is the first. -/
def arguments? (done : List Tree) (line : Line) : Option (List Tree) :=
  if done = [] ∧ line = {} then some []
  else line.tree?.map fun last => done ++ [last]

/-- A closing bracket. -/
def closing (r : Reader) : Bracket → Option Reader
  | .round =>
      match r.outer with
      | (.group, line) :: outer => do
          let tree ← r.line.tree?
          return ⟨{ line with operand := some tree }, outer⟩
      | (.cast type, line) :: outer =>
          if r.line = {} then
            some ⟨{ line with before := line.before ++ [.cast type] }, outer⟩
          else
            none
      | (.arguments done, line) :: outer => do
          let callee ← line.operand
          let arguments ← arguments? done r.line
          return ⟨{ line with operand := some (callee.callWith arguments) }, outer⟩
      | _ => none
  | .square =>
      match r.outer with
      | (.index, line) :: outer => do
          let array ← line.operand
          let index ← r.line.tree?
          return ⟨{ line with operand := some (.item array index) }, outer⟩
      | _ => none

/-- A comma between two arguments. -/
def comma (r : Reader) : Option Reader :=
  match r.outer with
  | (.arguments done, line) :: outer => do
      let argument ← r.line.tree?
      return ⟨{}, (.arguments (done ++ [argument]), line) :: outer⟩
  | _ => none

/-- Goes on by one lexeme. -/
def step (r : Reader) : Lexeme → Option Reader
  | .word text => if typeNames.contains text then r.type text else r.leaf text
  | .quoted text => r.leaf text
  | .opening bracket => r.opening bracket
  | .closing bracket => r.closing bracket
  | .comma => r.comma
  | .bang => r.unary .not
  | .binary op => r.binary op
  | .other _ => none

/-- Goes through a text. -/
def run (r : Reader) (text : List Char) : Option Reader :=
  (Lexeme.lex text).foldlM step r

/-- The tree of a text that ends here. -/
def finish (r : Reader) : Option Tree :=
  if r.outer = [] then r.line.tree? else none

/-! ### What a piece of text does -/

section Pieces

variable
  {line around : Line} {outer : List (Opening × Line)} {done : List Tree} {tree : Tree}
  {rest : List Char}

theorem run_of_lex
    {r next : Reader}
    {text : List Char}
    {lexeme : Lexeme}
    (hlex : Lexeme.lex text = lexeme :: Lexeme.lex rest)
    (hstep : r.step lexeme = some next) :
    r.run text = next.run rest := by
  rw [run, hlex, List.foldlM_cons, hstep]
  rfl

theorem run_group (h : line.operand = none) :
    run ⟨line, outer⟩ ('(' :: rest) = run ⟨{}, (.group, line) :: outer⟩ rest :=
  run_of_lex rfl (by simp [step, opening, h])

theorem run_arguments (tree : Tree) (h : line.operand = some tree) :
    run ⟨line, outer⟩ ('(' :: rest) = run ⟨{}, (.arguments [], line) :: outer⟩ rest :=
  run_of_lex rfl (by simp [step, opening, h])

theorem run_index (tree : Tree) (h : line.operand = some tree) :
    run ⟨line, outer⟩ ('[' :: rest) = run ⟨{}, (.index, line) :: outer⟩ rest :=
  run_of_lex rfl (by simp [step, opening, h])

theorem run_close_group (h : line.tree? = some tree) :
    run ⟨line, (.group, around) :: outer⟩ (')' :: rest) =
      run ⟨{ around with operand := some tree }, outer⟩ rest :=
  run_of_lex rfl (by simp [step, closing, h])

theorem run_close_index
    {array : Tree} (h : line.tree? = some tree) (harray : around.operand = some array) :
    run ⟨line, (.index, around) :: outer⟩ (']' :: rest) =
      run ⟨{ around with operand := some (.item array tree) }, outer⟩ rest :=
  run_of_lex rfl (by simp [step, closing, h, harray])

theorem run_close_arguments
    {callee : Tree} (arguments : List Tree) (h : arguments? done line = some arguments)
    (hcallee : around.operand = some callee) :
    run ⟨line, (.arguments done, around) :: outer⟩ (')' :: rest) =
      run ⟨{ around with operand := some (callee.callWith arguments) }, outer⟩ rest :=
  run_of_lex rfl (by simp [step, closing, h, hcallee])

theorem run_comma (h : line.tree? = some tree) :
    run ⟨line, (.arguments done, around) :: outer⟩ (',' :: ' ' :: rest) =
      run ⟨{}, (.arguments (done ++ [tree]), around) :: outer⟩ rest :=
  run_of_lex rfl (by simp [step, comma, h])

/-- A cast in front of an operand. -/
theorem run_cast
    {type : String}
    (htype : type ∈ typeNames)
    (hword : Lexeme.IsWord type.toList)
    (h : line.operand = none) :
    run ⟨line, outer⟩ ('(' :: type.toList ++ ')' :: rest) =
      run ⟨{ line with before := line.before ++ [.cast type] }, outer⟩ rest := by
  rw [List.cons_append, run_group h]
  have hlex := Lexeme.lex_word (')' :: rest) hword (Lexeme.breaks_cons rest (by decide))
  rw [String.ofList_toList] at hlex
  have hstep : step ⟨{}, (.group, line) :: outer⟩ (.word type) =
      some ⟨{}, (.cast type, line) :: outer⟩ := by
    simp [step, Reader.type, htype]
  rw [run_of_lex hlex hstep]
  exact run_of_lex rfl (by simp [step, closing])

theorem run_word
    {text : String}
    (hword : Lexeme.IsWord text.toList)
    (htype : text ∉ typeNames)
    (hrest : Lexeme.Breaks rest)
    (h : line.operand = none) :
    run ⟨line, outer⟩ (text.toList ++ rest) =
      run ⟨{ line with operand := some (.leaf text) }, outer⟩ rest := by
  have hlex := Lexeme.lex_word rest hword hrest
  rw [String.ofList_toList] at hlex
  exact run_of_lex hlex (by simp [step, leaf, htype, h])

theorem run_quoted
    {mark : Char}
    {more : List Char}
    (rest : List Char)
    (outer : List (Opening × Line))
    (hmark : mark = '"' ∨ mark = '\'')
    (hmore : ∀ c ∈ more, c ≠ mark)
    (h : line.operand = none) :
    run ⟨line, outer⟩ (mark :: more ++ [mark] ++ rest) =
      run ⟨{ line with operand := some (.leaf (String.ofList (mark :: more ++ [mark]))) },
        outer⟩ rest :=
  run_of_lex (Lexeme.lex_quoted rest hmark hmore) (by simp [step, leaf, h])

theorem run_not (hrest : rest.head? ≠ some '=') (h : line.operand = none) :
    run ⟨line, outer⟩ ('!' :: rest) =
      run ⟨{ line with before := line.before ++ [.not] }, outer⟩ rest := by
  refine run_of_lex (Lexeme.lex_sign rfl fun d hd => ?_) (by simp [step, Lexeme.ofSign, unary, h])
  have hne : d ≠ '=' := by
    rintro rfl
    exact hrest hd
  simp [Lexeme.ofSigns?, hne]

theorem run_minus (h : line.operand = none) :
    run ⟨line, outer⟩ ('-' :: '(' :: rest) =
      run ⟨{ line with before := line.before ++ [.minus] }, outer⟩ ('(' :: rest) := by
  refine run_of_lex (Lexeme.lex_sign rfl (by simp [Lexeme.ofSigns?])) ?_
  simp [step, Lexeme.ofSign, binary, unary, Line.chain?, h]

end Pieces

end Reader

/-- The operator tree of the text of an expression. -/
def read (text : String) : Option Tree :=
  ((({} : Reader)).run text.toList).bind Reader.finish

example : read "((1 && 2 * 3))" =
    some (.binary .and (.leaf "1") (.binary .times (.leaf "2") (.leaf "3"))) := by decide

example : read "!M_p[(1)]((x), (-(y)))" =
    some (.unary .not
      (.callWith (.item (.leaf "M_p") (.leaf "1")) [.leaf "x", .unary .minus (.leaf "y")])) := by
  decide

end Target
end Oberon
