import BranchingTime.Formula

/-!
# BranchingTime — syntax trees

The tree that a formula's nodes lay out, and what formulas mean as trees:
their layout in post-order, their fold and their printed form, each by
recursion on the tree. The functions on node arrays are measured against
these.

## Results

* `size_layout` — the layout of a tree has a node for each of its operators
  and atoms.
-/

namespace BranchingTime

/-- The syntax tree of a formula. -/
inductive Tree where
  | atom (name : String)
  | not (t : Tree)
  | connective (op : Connective) (t u : Tree)
  | temporal (q : Quantifier) (p : PathOperator) (t : Tree)
  | untl (q : Quantifier) (t u : Tree)
deriving DecidableEq, Inhabited

namespace Tree

/-- The formula whose nodes lay out a tree. -/
def layout : Tree → Formula
  | atom name => .atom name
  | not t => t.layout.not
  | connective op t u => t.layout.connect op u.layout
  | temporal q p t => t.layout.temporal q p
  | untl q t u => t.layout.untl q u.layout

/-- The number of operators and atoms. -/
def size : Tree → Nat
  | atom _ => 1
  | not t => t.size + 1
  | connective _ t u => t.size + u.size + 1
  | temporal _ _ t => t.size + 1
  | untl _ t u => t.size + u.size + 1

/-- The number of levels; an atom has one. -/
def height : Tree → Nat
  | atom _ => 1
  | not t => t.height + 1
  | connective _ t u => max t.height u.height + 1
  | temporal _ _ t => t.height + 1
  | untl _ t u => max t.height u.height + 1

/-- The value of a tree, from the values of its operands upwards. -/
def fold {α : Type} (value : Node α → α) : Tree → α
  | atom name => value (.atom name)
  | not t => value (.not (t.fold value))
  | connective op t u => value (.connective op (t.fold value) (u.fold value))
  | temporal q p t => value (.temporal q p (t.fold value))
  | untl q t u => value (.untl q (t.fold value) (u.fold value))

/-- The names of the atoms, left to right. -/
def atoms : Tree → List String
  | atom name => [name]
  | not t => t.atoms
  | connective _ t u => t.atoms ++ u.atoms
  | temporal _ _ t => t.atoms
  | untl _ t u => t.atoms ++ u.atoms

-- ---------------------------------------------------------------------------
-- Printing
-- ---------------------------------------------------------------------------

/-- Is the root a connective? -/
def isConnective : Tree → Bool
  | connective .. => true
  | _ => false

/-- Is the root a connective or a negation? Such a tree needs parentheses
where a single expression is wanted. -/
def isLoose : Tree → Bool
  | connective .. => true
  | not _ => true
  | _ => false

/-- Puts parentheses around a text, if they are needed. -/
def grouped (isNeeded : Bool) (text : String) : String :=
  if isNeeded then "(" ++ text ++ ")" else text

/-- The text of a tree. -/
def render : Tree → String
  | atom name => name
  | not t => "NOT " ++ grouped t.isConnective t.render
  | connective op t u => grouped t.isLoose t.render ++ " " ++ op.keyword ++ " " ++ u.render
  | temporal q p t => temporalKeyword q p ++ " " ++ grouped t.isLoose t.render
  | untl q t u =>
    q.keyword ++ "(" ++ grouped t.isLoose t.render ++ " U " ++ grouped u.isLoose u.render ++ ")"

-- ---------------------------------------------------------------------------
-- Layout
-- ---------------------------------------------------------------------------

theorem size_layout (t : Tree) : t.layout.size = t.size := by
  induction t with
  | atom name => rfl
  | not t ih => simpa [layout, Formula.not, Formula.unary, Formula.size, size] using ih
  | connective op t u iht ihu =>
    simp only [layout, Formula.connect, Formula.binary, Formula.size, size, Array.size_push,
      Array.size_append, Array.size_map] at iht ihu ⊢
    omega
  | temporal q p t ih =>
    simpa [layout, Formula.temporal, Formula.unary, Formula.size, size] using ih
  | untl q t u iht ihu =>
    simp only [layout, Formula.untl, Formula.binary, Formula.size, size, Array.size_push,
      Array.size_append, Array.size_map] at iht ihu ⊢
    omega

end Tree

end BranchingTime
