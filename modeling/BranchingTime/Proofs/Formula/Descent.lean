import BranchingTime.Proofs.Formula.Automaton
import BranchingTime.Proofs.Result
import BranchingTime.Proofs.Token.Scanning

/-!
# BranchingTime — recursive descent

The parser that the grammar suggests has one function for each of its two
symbols. A formula is an expression, and if a connective follows, this connective
and a formula; the other operators take what the grammar gives them. No stack
is kept, since the calls that wait are the stack, and trees are built instead of
nodes.

The automaton reads the same. Where it wants an operand, it reads on as the
function for this operand does, whatever waits below: it stops with the same
error, or comes out behind the same tokens with the nodes of the same tree.
Operators that end with an operand are still open then. They close before the
next token, because a formula goes on as long as there are connectives.

## Results

* `formula_stops` — no connective follows a formula that was read.
* `formula_follows`, `expression_follows` — the automaton reads operands as the
  two functions do.
* `parse_eq_descend` — so both parsers agree on every text.
-/

namespace BranchingTime.Formula

-- ---------------------------------------------------------------------------
-- The recursive parser
-- ---------------------------------------------------------------------------

namespace Descent

/-- What was read at the front of `tokens`: a tree, and the tokens behind it. -/
structure Taken (tokens : List LocatedToken) where
  tree : Tree
  rest : List LocatedToken
  shorter : rest.length < tokens.length

theorem Taken.tail_lt {tokens rest : List LocatedToken} {found : LocatedToken} (left : Taken tokens)
    (hRest : left.rest = found :: rest) : rest.length < tokens.length := by
  have hShorter := left.shorter
  rw [hRest] at hShorter
  exact Nat.lt_of_succ_lt hShorter

/-- The error that the first token is none of the kinds `expected`. Beyond the
last token there is nothing but the end. -/
def unexpected (expected : List Token.Kind) : List LocatedToken → ParseError
  | [] => { position := 0, found := .endOfText, expected }
  | found :: _ => { position := found.offset, found := found.token, expected }

/-- Takes one token, which has to be `token`. -/
def expect (token : Token) (expected : List Token.Kind) (tokens : List LocatedToken) :
    Except ParseError { rest : List LocatedToken // rest.length < tokens.length } :=
  match tokens with
  | [] => .error (unexpected expected [])
  | found :: rest =>
    if found.token = token then .ok ⟨rest, Nat.lt_succ_self _⟩
    else .error (unexpected expected (found :: rest))

mutual

/-- Reads a formula: an expression, and a connective with a further formula
whenever a connective follows. -/
def formula (tokens : List LocatedToken) : Except ParseError (Taken tokens) := do
  let left ← expression tokens
  match hRest : left.rest with
  | ⟨.connective op, _⟩ :: rest =>
    have hLeft : rest.length < tokens.length := left.tail_lt hRest
    let right ← formula rest
    return ⟨.connective op left.tree right.tree, right.rest, Nat.lt_trans right.shorter hLeft⟩
  | _ => return left
termination_by (tokens.length, 1)

/-- Reads an expression. A negation takes a formula, the temporal operators and
the two sides of an until take an expression. -/
def expression (tokens : List LocatedToken) : Except ParseError (Taken tokens) :=
  match tokens with
  | ⟨.atom name, _⟩ :: rest => return ⟨.atom name, rest, Nat.lt_succ_self _⟩
  | ⟨.not, _⟩ :: rest => do
    let inner ← formula rest
    return ⟨.not inner.tree, inner.rest, Nat.lt_succ_of_lt inner.shorter⟩
  | ⟨.leftParen, _⟩ :: rest => do
    let inner ← formula rest
    let after ← expect .rightParen afterGrouped inner.rest
    return ⟨inner.tree, after.val, Nat.lt_succ_of_lt (Nat.lt_trans after.property inner.shorter)⟩
  | ⟨.temporal q p, _⟩ :: rest => do
    let inner ← expression rest
    return ⟨.temporal q p inner.tree, inner.rest, Nat.lt_succ_of_lt inner.shorter⟩
  | ⟨.quantifier q, _⟩ :: rest => do
    let opened ← expect .leftParen [.leftParen] rest
    let left ← expression opened.val
    let middle ← expect .untl [.untl] left.rest
    have hMiddle : middle.val.length < rest.length :=
      Nat.lt_trans middle.property (Nat.lt_trans left.shorter opened.property)
    let right ← expression middle.val
    let closed ← expect .rightParen [.rightParen] right.rest
    return ⟨.untl q left.tree right.tree, closed.val,
      Nat.lt_succ_of_lt (Nat.lt_trans closed.property (Nat.lt_trans right.shorter hMiddle))⟩
  | tokens => .error (unexpected expressionStart tokens)
termination_by (tokens.length, 0)

end

end Descent

/-- Parses a text by recursive descent: a formula, and then the end. -/
def descend (text : String) : Except ParseError Tree := do
  let taken ← Descent.formula (tokenize text)
  let _ ← Descent.expect .endOfText afterFormula taken.rest
  return taken.tree

namespace Descent

open Formula.Parser

-- ---------------------------------------------------------------------------
-- Where formulas stop
-- ---------------------------------------------------------------------------

/-- The first token is no connective. -/
def NoConnective (tokens : List LocatedToken) : Prop :=
  ∀ found rest op, tokens = found :: rest → found.token ≠ .connective op

/-- A formula is read as far as its connectives go. -/
theorem formula_stops {tokens : List LocatedToken} {taken : Taken tokens}
    (h : formula tokens = .ok taken) : NoConnective taken.rest := by
  rw [formula] at h
  obtain ⟨left, -, h⟩ := bind_eq_ok_iff.mp h
  split at h
  · rename_i op offset rest hRest
    have hShorter : rest.length < tokens.length := left.tail_lt hRest
    obtain ⟨right, hRight, h⟩ := bind_eq_ok_iff.mp h
    cases h
    show NoConnective right.rest
    exact formula_stops hRight
  · rename_i hOther
    cases h
    rintro ⟨token, offset⟩ rest op hTokens rfl
    exact hOther op offset rest hTokens
termination_by tokens.length

-- ---------------------------------------------------------------------------
-- Tokens up to the end
-- ---------------------------------------------------------------------------

/-- The last token is the end token. -/
def IsEnded (tokens : List LocatedToken) : Prop :=
  ∃ inside offset, tokens = inside ++ [⟨.endOfText, offset⟩]

theorem IsEnded.exists_cons {tokens : List LocatedToken} (h : IsEnded tokens) :
    ∃ found rest, tokens = found :: rest := by
  obtain ⟨inside, offset, rfl⟩ := h
  exact List.exists_cons_of_ne_nil (by simp)

/-- Behind any other token, the end token is still to come. -/
theorem IsEnded.tail {found : LocatedToken} {rest : List LocatedToken}
    (h : IsEnded (found :: rest)) (hToken : found.token ≠ .endOfText) : IsEnded rest := by
  obtain ⟨inside, offset, hTokens⟩ := h
  cases inside with
  | nil =>
    obtain ⟨rfl, -⟩ := List.cons.inj hTokens
    exact absurd rfl hToken
  | cons first inside => exact ⟨inside, offset, (List.cons.inj hTokens).2⟩

theorem IsEnded.expect {token : Token} {expected : List Token.Kind} {tokens : List LocatedToken}
    {after : { rest : List LocatedToken // rest.length < tokens.length }} (h : IsEnded tokens)
    (hExpect : expect token expected tokens = .ok after) (hToken : token ≠ .endOfText) :
    IsEnded after.val := by
  cases tokens with
  | nil => cases hExpect
  | cons found rest =>
    dsimp only [Descent.expect] at hExpect
    split at hExpect
    · rename_i hFound
      cases hExpect
      exact h.tail (hFound ▸ hToken)
    · cases hExpect

-- The number of tokens falls at every call but that for the expression at the
-- start of a formula.
mutual

theorem formula_ended {tokens : List LocatedToken} {taken : Taken tokens} (hEnded : IsEnded tokens)
    (h : formula tokens = .ok taken) : IsEnded taken.rest := by
  rw [formula] at h
  obtain ⟨left, hLeft, h⟩ := bind_eq_ok_iff.mp h
  have hRest := expression_ended hEnded hLeft
  split at h
  · rename_i op offset rest hTokens
    have hShorter : rest.length < tokens.length := left.tail_lt hTokens
    rw [hTokens] at hRest
    obtain ⟨right, hRight, h⟩ := bind_eq_ok_iff.mp h
    cases h
    show IsEnded right.rest
    exact formula_ended (hRest.tail nofun) hRight
  · cases h
    exact hRest
termination_by (tokens.length, 1)

theorem expression_ended {tokens : List LocatedToken} {taken : Taken tokens}
    (hEnded : IsEnded tokens) (h : expression tokens = .ok taken) : IsEnded taken.rest := by
  obtain ⟨⟨token, offset⟩, rest, rfl⟩ := hEnded.exists_cons
  have hTail (hToken : token ≠ .endOfText) : IsEnded rest := hEnded.tail hToken
  cases token with
  | atom name =>
    rw [expression] at h
    cases h
    exact hTail nofun
  | not =>
    rw [expression] at h
    obtain ⟨inner, hInner, h⟩ := bind_eq_ok_iff.mp h
    cases h
    show IsEnded inner.rest
    exact formula_ended (hTail nofun) hInner
  | leftParen =>
    rw [expression] at h
    obtain ⟨inner, hInner, h⟩ := bind_eq_ok_iff.mp h
    obtain ⟨after, hAfter, h⟩ := bind_eq_ok_iff.mp h
    cases h
    exact (formula_ended (hTail nofun) hInner).expect hAfter nofun
  | temporal q p =>
    rw [expression] at h
    obtain ⟨inner, hInner, h⟩ := bind_eq_ok_iff.mp h
    cases h
    show IsEnded inner.rest
    exact expression_ended (hTail nofun) hInner
  | quantifier q =>
    rw [expression] at h
    obtain ⟨opened, hOpened, h⟩ := bind_eq_ok_iff.mp h
    obtain ⟨left, hLeft, h⟩ := bind_eq_ok_iff.mp h
    obtain ⟨middle, hMiddle, h⟩ := bind_eq_ok_iff.mp h
    obtain ⟨right, hRight, h⟩ := bind_eq_ok_iff.mp h
    obtain ⟨closed, hClosed, h⟩ := bind_eq_ok_iff.mp h
    have hMiddleLt : middle.val.length < rest.length :=
      Nat.lt_trans middle.property (Nat.lt_trans left.shorter opened.property)
    have hEndedLeft := expression_ended ((hTail nofun).expect hOpened nofun) hLeft
    have hEndedRight := expression_ended (hEndedLeft.expect hMiddle nofun) hRight
    cases h
    exact hEndedRight.expect hClosed nofun
  | _ =>
    rw [expression] at h
    · cases h
    all_goals nofun
termination_by (tokens.length, 0)
decreasing_by
  all_goals grind

end

-- ---------------------------------------------------------------------------
-- The automaton behind an operand
-- ---------------------------------------------------------------------------

section Behind

variable (nodes : Array (Node Nat)) (stack : List Frame) {tokens : List LocatedToken}

/-- Where a formula is wanted, a connective waits for its right side. -/
theorem run_open (hWants : WantsFormula stack) (op : Connective) (offset : Nat)
    (rest : List LocatedToken) :
    Parser.run { nodes, stack, phase := .continuation } (⟨.connective op, offset⟩ :: rest) =
      Parser.run { nodes, stack := .connective op (nodes.size - 1) :: stack, phase := .operand }
        rest := by
  match stack, hWants with
  | [], _ => rfl
  | .not :: _, _ => rfl
  | .group :: _, _ => rfl
  | .connective .. :: _, _ => rfl

variable (hEnded : IsEnded tokens)
include hEnded

/-- A path quantifier needs a parenthesis. -/
theorem run_opening (q : Quantifier) :
    Parser.run { nodes, stack, phase := .opening q } tokens =
      expect .leftParen [.leftParen] tokens >>= fun after =>
        Parser.run { nodes, stack := .untlLeft q :: stack, phase := .operand } after.val := by
  obtain ⟨⟨token, offset⟩, rest, rfl⟩ := hEnded.exists_cons
  cases token <;> rfl

theorem run_temporal (q : Quantifier) (p : PathOperator) :
    Parser.run { nodes, stack := .temporal q p :: stack, phase := .continuation } tokens =
      Parser.run
        { nodes := nodes.push (.temporal q p (nodes.size - 1)), stack, phase := .continuation }
        tokens := by
  obtain ⟨found, rest, rfl⟩ := hEnded.exists_cons
  rfl

theorem run_untlLeft (q : Quantifier) :
    Parser.run { nodes, stack := .untlLeft q :: stack, phase := .continuation } tokens =
      expect .untl [.untl] tokens >>= fun after =>
        Parser.run { nodes, stack := .untlRight q (nodes.size - 1) :: stack, phase := .operand }
          after.val := by
  obtain ⟨⟨token, offset⟩, rest, rfl⟩ := hEnded.exists_cons
  cases token <;> rfl

theorem run_untlRight (q : Quantifier) (left : Nat) :
    Parser.run { nodes, stack := .untlRight q left :: stack, phase := .continuation } tokens =
      expect .rightParen [.rightParen] tokens >>= fun after =>
        Parser.run
          { nodes := nodes.push (.untl q left (nodes.size - 1)), stack, phase := .continuation }
          after.val := by
  obtain ⟨⟨token, offset⟩, rest, rfl⟩ := hEnded.exists_cons
  cases token <;> rfl

variable (hStops : NoConnective tokens)
include hStops

/-- Only a formula that could still go on keeps an operator with an open end from
closing. -/
theorem run_not :
    Parser.run { nodes, stack := .not :: stack, phase := .continuation } tokens =
      Parser.run { nodes := nodes.push (.not (nodes.size - 1)), stack, phase := .continuation }
        tokens := by
  obtain ⟨⟨token, offset⟩, rest, rfl⟩ := hEnded.exists_cons
  cases token with
  | connective op => exact absurd rfl (hStops _ _ op rfl)
  | _ => rfl

theorem run_connective (op : Connective) (left : Nat) :
    Parser.run { nodes, stack := .connective op left :: stack, phase := .continuation } tokens =
      Parser.run
        { nodes := nodes.push (.connective op left (nodes.size - 1)), stack
          phase := .continuation }
        tokens := by
  obtain ⟨⟨token, offset⟩, rest, rfl⟩ := hEnded.exists_cons
  cases token with
  | connective op' => exact absurd rfl (hStops _ _ op' rfl)
  | _ => rfl

theorem run_group :
    Parser.run { nodes, stack := .group :: stack, phase := .continuation } tokens =
      expect .rightParen afterGrouped tokens >>= fun after =>
        Parser.run { nodes, stack, phase := .continuation } after.val := by
  obtain ⟨⟨token, offset⟩, rest, rfl⟩ := hEnded.exists_cons
  cases token with
  | connective op => exact absurd rfl (hStops _ _ op rfl)
  | _ => rfl

/-- A complete formula is the whole text. -/
theorem run_top :
    Parser.run { nodes, stack := [], phase := .continuation } tokens =
      expect .endOfText afterFormula tokens >>= fun _ =>
        .ok { nodes, stack := [], phase := .done } := by
  obtain ⟨⟨token, offset⟩, rest, rfl⟩ := hEnded.exists_cons
  have hDone (rest : List LocatedToken) :
      Parser.run { nodes, stack := [], phase := .done } rest =
        .ok { nodes, stack := [], phase := .done } := by
    induction rest with
    | nil => rfl
    | cons found rest ih => exact ih
  cases token with
  | connective op => exact absurd rfl (hStops _ _ op rfl)
  | endOfText => exact hDone rest
  | _ => rfl

end Behind

-- ---------------------------------------------------------------------------
-- Nodes of a tree
-- ---------------------------------------------------------------------------

/-- The nodes with those of a tree behind them. -/
def grown (nodes : Array (Node Nat)) (t : Tree) : Array (Node Nat) :=
  nodes ++ (t.nodesFrom nodes.size).toArray

theorem endsWith_iff_grown {nodes nodes' : Array (Node Nat)} {t : Tree} :
    EndsWith nodes' nodes.toList t ↔ nodes' = grown nodes t := by
  rw [EndsWith, ← Array.toList_inj, grown, Array.toList_append, Array.length_toList]

theorem endsWith_grown (nodes : Array (Node Nat)) (t : Tree) :
    EndsWith (grown nodes t) nodes.toList t :=
  endsWith_iff_grown.mpr rfl

theorem endsWith_grown_grown (nodes : Array (Node Nat)) (t u : Tree) :
    EndsWith (grown (grown nodes t) u) (nodes.toList ++ t.nodesFrom nodes.toList.length) u := by
  have hNodes : (grown nodes t).toList = nodes.toList ++ t.nodesFrom nodes.toList.length :=
    endsWith_grown nodes t
  rw [← hNodes]
  exact endsWith_grown (grown nodes t) u

theorem grown_atom (nodes : Array (Node Nat)) (name : String) :
    nodes.push (.atom name) = grown nodes (.atom name) :=
  Array.push_eq_append ..

section Grown

variable (nodes : Array (Node Nat)) (t u : Tree)

theorem grown_not :
    (grown nodes t).push (.not ((grown nodes t).size - 1)) = grown nodes (.not t) :=
  endsWith_iff_grown.mp (endsWith_grown nodes t).push_not

theorem grown_temporal (q : Quantifier) (p : PathOperator) :
    (grown nodes t).push (.temporal q p ((grown nodes t).size - 1)) =
      grown nodes (.temporal q p t) :=
  endsWith_iff_grown.mp ((endsWith_grown nodes t).push_temporal q p)

theorem grown_connective (op : Connective) :
    (grown (grown nodes t) u).push
        (.connective op ((grown nodes t).size - 1) ((grown (grown nodes t) u).size - 1)) =
      grown nodes (.connective op t u) := by
  rw [(endsWith_grown nodes t).root_eq]
  exact endsWith_iff_grown.mp ((endsWith_grown_grown nodes t u).push_connective op)

theorem grown_untl (q : Quantifier) :
    (grown (grown nodes t) u).push
        (.untl q ((grown nodes t).size - 1) ((grown (grown nodes t) u).size - 1)) =
      grown nodes (.untl q t u) := by
  rw [(endsWith_grown nodes t).root_eq]
  exact endsWith_iff_grown.mp ((endsWith_grown_grown nodes t u).push_untl q)

end Grown

-- ---------------------------------------------------------------------------
-- The automaton reads operands
-- ---------------------------------------------------------------------------

/-- Where an operand is wanted above `stack`, the automaton reads `tokens` with
this result: it goes on behind the operand, with the nodes of its tree added, or
it stops with the error. -/
def Follows (stack : List Frame) (tokens : List LocatedToken)
    (result : Except ParseError (Taken tokens)) : Prop :=
  ∀ nodes, Parser.run { nodes, stack, phase := .operand } tokens =
    result >>= fun taken =>
      Parser.run { nodes := grown nodes taken.tree, stack, phase := .continuation } taken.rest

section Follows

variable {rest : List LocatedToken} (stack : List Frame) (offset : Nat)

theorem not_follows (hEnded : IsEnded rest) (hInner : Follows (.not :: stack) rest (formula rest)) :
    Follows stack (⟨.not, offset⟩ :: rest) (expression (⟨.not, offset⟩ :: rest)) := by
  intro nodes
  rw [expression, bind_assoc]
  refine (hInner nodes).trans (bind_congr_of_ok fun inner hTaken => ?_)
  rw [run_not _ _ (formula_ended hEnded hTaken) (formula_stops hTaken), grown_not]
  rfl

theorem group_follows (hEnded : IsEnded rest)
    (hInner : Follows (.group :: stack) rest (formula rest)) :
    Follows stack (⟨.leftParen, offset⟩ :: rest) (expression (⟨.leftParen, offset⟩ :: rest)) := by
  intro nodes
  rw [expression, bind_assoc]
  refine (hInner nodes).trans (bind_congr_of_ok fun inner hTaken => ?_)
  rw [run_group _ _ (formula_ended hEnded hTaken) (formula_stops hTaken), bind_assoc]
  rfl

theorem temporal_follows (q : Quantifier) (p : PathOperator) (hEnded : IsEnded rest)
    (hInner : Follows (.temporal q p :: stack) rest (expression rest)) :
    Follows stack (⟨.temporal q p, offset⟩ :: rest)
      (expression (⟨.temporal q p, offset⟩ :: rest)) := by
  intro nodes
  rw [expression, bind_assoc]
  refine (hInner nodes).trans (bind_congr_of_ok fun inner hTaken => ?_)
  rw [run_temporal _ _ (expression_ended hEnded hTaken), grown_temporal]
  rfl

theorem untl_follows (q : Quantifier) (hEnded : IsEnded rest)
    (hOperand : ∀ tokens stack, tokens.length < rest.length → IsEnded tokens →
      Follows stack tokens (expression tokens)) :
    Follows stack (⟨.quantifier q, offset⟩ :: rest)
      (expression (⟨.quantifier q, offset⟩ :: rest)) := by
  intro nodes
  rw [expression]
  simp only [bind_assoc]
  refine (run_opening nodes stack hEnded q).trans (bind_congr_of_ok fun opened hOpened => ?_)
  have hEndedLeft := hEnded.expect hOpened nofun
  rw [hOperand opened.val _ opened.property hEndedLeft]
  refine bind_congr_of_ok fun left hLeft => ?_
  have hEndedMiddle := expression_ended hEndedLeft hLeft
  rw [run_untlLeft _ _ hEndedMiddle]
  refine bind_congr_of_ok fun middle hMiddle => ?_
  have hEndedRight := hEndedMiddle.expect hMiddle nofun
  have hMiddleLt : middle.val.length < rest.length :=
    Nat.lt_trans middle.property (Nat.lt_trans left.shorter opened.property)
  rw [hOperand middle.val _ hMiddleLt hEndedRight]
  refine bind_congr_of_ok fun right hRight => ?_
  rw [run_untlRight _ _ (expression_ended hEndedRight hRight), grown_untl]
  rfl

end Follows

mutual

/-- The automaton reads a formula where one is wanted. -/
theorem formula_follows {tokens : List LocatedToken} (hEnded : IsEnded tokens)
    {stack : List Frame} (hWants : WantsFormula stack) :
    Follows stack tokens (formula tokens) := by
  intro nodes
  rw [formula, bind_assoc, expression_follows hEnded stack nodes]
  refine bind_congr_of_ok fun left hLeft => ?_
  have hRest := expression_ended hEnded hLeft
  split
  · -- a connective follows: it waits on the stack while its right side is read
    rename_i op offset rest hTokens
    have hShorter : rest.length < tokens.length := left.tail_lt hTokens
    rw [hTokens] at hRest
    have hEndedRight : IsEnded rest := hRest.tail nofun
    have hWaits : WantsFormula (.connective op ((grown nodes left.tree).size - 1) :: stack) :=
      trivial
    have hRight := formula_follows hEndedRight hWaits (grown nodes left.tree)
    rw [← run_open _ _ hWants op offset, ← hTokens] at hRight
    rw [hRight, bind_assoc]
    refine bind_congr_of_ok fun right hTaken => ?_
    rw [run_connective _ _ (formula_ended hEndedRight hTaken) (formula_stops hTaken),
      grown_connective]
    rfl
  · rfl
termination_by (tokens.length, 1)

/-- The automaton reads an expression, whatever waits for it. -/
theorem expression_follows {tokens : List LocatedToken} (hEnded : IsEnded tokens)
    (stack : List Frame) : Follows stack tokens (expression tokens) := by
  obtain ⟨⟨token, offset⟩, rest, rfl⟩ := hEnded.exists_cons
  have hTail (hToken : token ≠ .endOfText) : IsEnded rest := hEnded.tail hToken
  cases token with
  | atom name =>
    intro nodes
    rw [expression]
    show Parser.run { nodes := nodes.push (.atom name), stack, phase := .continuation } rest = _
    rw [grown_atom]
    rfl
  | not =>
    have hRest := hTail nofun
    exact not_follows stack offset hRest (formula_follows hRest trivial)
  | leftParen =>
    have hRest := hTail nofun
    exact group_follows stack offset hRest (formula_follows hRest trivial)
  | temporal q p =>
    have hRest := hTail nofun
    exact temporal_follows stack offset q p hRest (expression_follows hRest _)
  | quantifier q =>
    refine untl_follows stack offset q (hTail nofun) fun tokens stack hShorter hTokens => ?_
    exact expression_follows hTokens stack
  | _ =>
    intro nodes
    rw [expression]
    · rfl
    all_goals nofun
termination_by (tokens.length, 0)
decreasing_by
  all_goals grind

end

theorem isEnded_tokenize (text : String) : IsEnded (tokenize text) := by
  obtain ⟨tokens, hTokens, -⟩ := Token.lex_eq_append text.toList
  rw [← Token.map_token_tokenize, List.map_eq_append_iff] at hTokens
  obtain ⟨inside, last, hSplit, -, hLast⟩ := hTokens
  obtain ⟨⟨token, offset⟩, rfl, rfl⟩ := List.map_eq_singleton_iff.mp hLast
  exact ⟨inside, offset, hSplit⟩

theorem grown_empty (t : Tree) : (⟨grown #[] t⟩ : Formula) = t.layout :=
  (endsWith_grown #[] t).eq_layout

end Descent

/-- **The automaton is a recursive descent.** On every text it comes to the result
that the recursive parser comes to: the nodes of the same tree, or an error at
the same token, where the same kinds of tokens were expected. -/
theorem parse_eq_descend (text : String) : parse text = (descend text).map Tree.layout := by
  have hEnded := Descent.isEnded_tokenize text
  have hWants : Parser.WantsFormula [] := trivial
  have hRun : Parser.start.run (tokenize text) = Descent.formula (tokenize text) >>= fun taken =>
      Descent.expect .endOfText afterFormula taken.rest >>= fun _ =>
        .ok { nodes := Descent.grown #[] taken.tree, stack := [], phase := .done } := by
    rw [Parser.start, Descent.formula_follows hEnded hWants]
    refine bind_congr_of_ok fun taken hTaken => ?_
    exact Descent.run_top _ (Descent.formula_ended hEnded hTaken) (Descent.formula_stops hTaken)
  rw [parse, hRun, descend]
  cases Descent.formula (tokenize text) with
  | error e => rfl
  | ok taken =>
    show Except.map _ (Descent.expect .endOfText afterFormula taken.rest >>= _) =
      Except.map _ (Descent.expect .endOfText afterFormula taken.rest >>= _)
    cases Descent.expect .endOfText afterFormula taken.rest with
    | error e => rfl
    | ok after => exact congrArg Except.ok (Descent.grown_empty taken.tree)

end BranchingTime.Formula
