import BranchingTime.Ascending
import BranchingTime.Operator

/-!
# BranchingTime — formulas

A formula is stored as the list of its nodes in post-order: first the nodes of
the left operand, then those of the right operand, then the operator, which
refers to its operands by their places in the list. The root is the last node.
A formula of any depth is thus built, compared and evaluated by going once
through an array, and two formulas are the same tree iff their node arrays are
equal.
-/

namespace BranchingTime

-- ---------------------------------------------------------------------------
-- Nodes
-- ---------------------------------------------------------------------------

/-- One operator or atom of a formula; `ρ` is what stands for an operand: a
place in an array, or the operand's value. -/
inductive Node (ρ : Type) where
  | atom (name : String)
  | not (f : ρ)
  | connective (op : Connective) (f g : ρ)
  | temporal (q : Quantifier) (p : PathOperator) (f : ρ)
  | untl (q : Quantifier) (f g : ρ)
deriving DecidableEq, Inhabited

namespace Node

/-- Replaces every operand. -/
def map {ρ σ : Type} (h : ρ → σ) : Node ρ → Node σ
  | atom name => atom name
  | not f => not (h f)
  | connective op f g => connective op (h f) (h g)
  | temporal q p f => temporal q p (h f)
  | untl q f g => untl q (h f) (h g)

/-- Replaces every operand, left to right, keeping a state. -/
def mapAccum {ρ σ τ : Type} (h : σ → ρ → τ × σ) (state : σ) : Node ρ → Node τ × σ
  | atom name => (atom name, state)
  | not f =>
    let (f, state) := h state f
    (not f, state)
  | connective op f g =>
    let (f, state) := h state f
    let (g, state) := h state g
    (connective op f g, state)
  | temporal q p f =>
    let (f, state) := h state f
    (temporal q p f, state)
  | untl q f g =>
    let (f, state) := h state f
    let (g, state) := h state g
    (untl q f g, state)

/-- The operands, left to right. -/
def operands {ρ : Type} : Node ρ → List ρ
  | atom _ => []
  | not f => [f]
  | connective _ f g => [f, g]
  | temporal _ _ f => [f]
  | untl _ f g => [f, g]

/-- The keyword of the operator; an atom has none. -/
def operator? {ρ : Type} : Node ρ → Option String
  | atom _ => none
  | not _ => some "NOT"
  | connective op _ _ => some op.keyword
  | temporal q p _ => some (temporalKeyword q p)
  | untl q _ _ => some q.keyword

/-- The name of an atom. -/
def atom? {ρ : Type} : Node ρ → Option String
  | atom name => some name
  | _ => none

/-- Is this a binary connective? -/
def isConnective {ρ : Type} : Node ρ → Bool
  | connective .. => true
  | _ => false

/-- Is this a negation? -/
def isNot {ρ : Type} : Node ρ → Bool
  | not _ => true
  | _ => false

/-- Is this a temporal operator? -/
def isTemporal {ρ : Type} : Node ρ → Bool
  | temporal .. => true
  | untl .. => true
  | _ => false

end Node

-- ---------------------------------------------------------------------------
-- Formulas
-- ---------------------------------------------------------------------------

/-- A formula: its nodes in post-order, operands given by their places. -/
structure Formula where
  nodes : Array (Node Nat)
deriving DecidableEq, Inhabited

namespace Formula

/-- The number of nodes. -/
def size (f : Formula) : Nat :=
  f.nodes.size

/-- The place of the root. -/
def root (f : Formula) : Nat :=
  f.nodes.size - 1

/-- The node at place `i`. -/
def node (f : Formula) (i : Nat) : Node Nat :=
  f.nodes.getD i default

/-- The root node. -/
def top (f : Formula) : Node Nat :=
  f.node f.root

-- ---------------------------------------------------------------------------
-- Building
-- ---------------------------------------------------------------------------

/-- Puts an operator with one operand on top of `f`. -/
def unary (make : Nat → Node Nat) (f : Formula) : Formula :=
  ⟨f.nodes.push (make f.root)⟩

/-- Puts an operator with two operands on top of `f` and `g`. The nodes of `g`
move up by the size of `f`, and so do the places they refer to. -/
def binary (make : Nat → Nat → Node Nat) (f g : Formula) : Formula :=
  let shifted := g.nodes.map (Node.map (· + f.size))
  ⟨(f.nodes ++ shifted).push (make f.root (g.root + f.size))⟩

/-- The atom called `name`. -/
def atom (name : String) : Formula :=
  ⟨#[.atom name]⟩

/-- The negation of `f`. -/
def not (f : Formula) : Formula :=
  unary .not f

/-- Joins two formulas by a connective. -/
def connect (f : Formula) (op : Connective) (g : Formula) : Formula :=
  binary (.connective op) f g

/-- A temporal operator with one operand. -/
def temporal (f : Formula) (q : Quantifier) (p : PathOperator) : Formula :=
  unary (.temporal q p) f

/-- On some path, or on every path, `f` holds until `g` does. -/
def untl (f : Formula) (q : Quantifier) (g : Formula) : Formula :=
  binary (.untl q) f g

-- ---------------------------------------------------------------------------
-- Evaluating
-- ---------------------------------------------------------------------------

/-- Takes the value at a place out of `found`, leaving the default there. -/
def takeValue {α : Type} [Inhabited α] (found : Array α) (place : Nat) : α × Array α :=
  (found.getD place default, found.setIfInBounds place default)

/-- Evaluates one node: its operands are taken out of the values found so far,
and its own value goes behind them. `value` may keep a state of its own. -/
def collapseStep {α σ : Type} [Inhabited α] (value : Node α → σ → α × σ)
    (progress : Array α × σ) (node : Node Nat) : Array α × σ :=
  let (operands, found) := node.mapAccum takeValue progress.1
  let (result, state) := value operands progress.2
  (found.push result, state)

/-- Evaluates a formula, operands first. Each value is handed over to the node
above it once. -/
def collapse {α σ : Type} [Inhabited α] (f : Formula) (value : Node α → σ → α × σ) (state : σ) :
    α × σ :=
  let (found, state) := f.nodes.foldl (collapseStep value) (#[], state)
  (found.back?.getD default, state)

/-- The value of a formula, from the values of its nodes' operands upwards. -/
def fold {α : Type} [Inhabited α] (f : Formula) (value : Node α → α) : α :=
  (f.collapse (fun node _ => (value node, ())) ()).1

/-- The height of the syntax tree; an atom has height 1. -/
def depth (f : Formula) : Nat :=
  f.fold fun node => node.operands.foldl max 0 + 1

/-- The number of nodes, counted over the tree. -/
def count (f : Formula) : Nat :=
  f.fold fun node => node.operands.foldl (· + ·) 0 + 1

/-- The names of the atoms, ascending, each once. -/
def atoms (f : Formula) : List String :=
  Ascending.ofList (f.nodes.toList.filterMap Node.atom?)

/-- The number of temporal operators. -/
def temporalCount (f : Formula) : Nat :=
  f.nodes.countP Node.isTemporal

end Formula

end BranchingTime
