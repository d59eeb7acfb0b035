import BranchingTime.Formula.Tree
import BranchingTime.Proofs.Ascending

/-!
# BranchingTime — trees laid out as node arrays

A tree may be laid out from any place of an array on: its nodes stand one after
the other in post-order, and each refers to its operands by their places. What
the loops on node arrays do is shown for such a stretch in the middle of an
array, and follows for a whole formula.

## Results

* `nodes_layout` — the layout of a tree is its stretch from place 0 on.
* `collapse_layout` — evaluating the layout is evaluating the tree: every value
  is handed to the one node above it, none is met after it was taken.
* `layout_injective` — a formula lays out at most one tree.
-/

namespace BranchingTime

namespace Tree

theorem size_pos (t : Tree) : 0 < t.size := by
  cases t <;> simp [size]

-- ---------------------------------------------------------------------------
-- Stretches of nodes
-- ---------------------------------------------------------------------------

/-- The place of the root when a tree is laid out from place `start` on. -/
def rootFrom (start : Nat) (t : Tree) : Nat :=
  start + t.size - 1

theorem rootFrom_add (t : Tree) (start offset : Nat) :
    t.rootFrom start + offset = t.rootFrom (start + offset) := by
  have hPos := t.size_pos
  unfold rootFrom
  omega

/-- The nodes of a tree, laid out from place `start` on. -/
def nodesFrom (start : Nat) : Tree → List (Node Nat)
  | atom name => [.atom name]
  | not t => t.nodesFrom start ++ [.not (t.rootFrom start)]
  | connective op t u =>
    t.nodesFrom start ++ u.nodesFrom (start + t.size) ++
      [.connective op (t.rootFrom start) (u.rootFrom (start + t.size))]
  | temporal q p t => t.nodesFrom start ++ [.temporal q p (t.rootFrom start)]
  | untl q t u =>
    t.nodesFrom start ++ u.nodesFrom (start + t.size) ++
      [.untl q (t.rootFrom start) (u.rootFrom (start + t.size))]

@[simp] theorem length_nodesFrom (t : Tree) (start : Nat) :
    (t.nodesFrom start).length = t.size := by
  induction t generalizing start with
  | atom name => rfl
  | not t ih => simp [nodesFrom, size, ih]
  | connective op t u iht ihu => simp [nodesFrom, size, iht, ihu, Nat.add_assoc]
  | temporal q p t ih => simp [nodesFrom, size, ih]
  | untl q t u iht ihu => simp [nodesFrom, size, iht, ihu, Nat.add_assoc]

/-- A stretch moves up when all places in it do. -/
theorem map_nodesFrom (t : Tree) (start offset : Nat) :
    (t.nodesFrom start).map (Node.map (· + offset)) = t.nodesFrom (start + offset) := by
  induction t generalizing start with
  | atom name => rfl
  | not t ih => simp [nodesFrom, Node.map, ih, rootFrom_add]
  | connective op t u iht ihu =>
    simp [nodesFrom, Node.map, iht, ihu, rootFrom_add, Nat.add_right_comm]
  | temporal q p t ih => simp [nodesFrom, Node.map, ih, rootFrom_add]
  | untl q t u iht ihu =>
    simp [nodesFrom, Node.map, iht, ihu, rootFrom_add, Nat.add_right_comm]

theorem root_layout (t : Tree) : t.layout.root = t.rootFrom 0 := by
  unfold Formula.root rootFrom
  rw [← size_layout, Formula.size, Nat.zero_add]

/-- The layout of a tree is its stretch from place 0 on: the right operand of a
binary operator was laid out on its own first and then moved up. -/
theorem nodes_layout (t : Tree) : t.layout.nodes.toList = t.nodesFrom 0 := by
  induction t with
  | atom name => rfl
  | not t ih =>
    simp only [layout, Formula.not, Formula.unary, nodesFrom, Array.toList_push, ih, root_layout]
  | connective op t u iht ihu =>
    simp only [layout, Formula.connect, Formula.binary, nodesFrom, Array.toList_push,
      Array.toList_append, Array.toList_map, iht, ihu, size_layout, map_nodesFrom, root_layout,
      rootFrom_add]
  | temporal q p t ih =>
    simp only [layout, Formula.temporal, Formula.unary, nodesFrom, Array.toList_push, ih,
      root_layout]
  | untl q t u iht ihu =>
    simp only [layout, Formula.untl, Formula.binary, nodesFrom, Array.toList_push,
      Array.toList_append, Array.toList_map, iht, ihu, size_layout, map_nodesFrom, root_layout,
      rootFrom_add]

-- ---------------------------------------------------------------------------
-- Evaluation
-- ---------------------------------------------------------------------------

section Collapse

variable {α σ : Type} [Inhabited α]

/-- Evaluates a tree, operands first and from left to right. -/
def collapse (value : Node α → σ → α × σ) : Tree → σ → α × σ
  | atom name, state => value (.atom name) state
  | not t, state =>
    let (v, state) := t.collapse value state
    value (.not v) state
  | connective op t u, state =>
    let (v, state) := t.collapse value state
    let (w, state) := u.collapse value state
    value (.connective op v w) state
  | temporal q p t, state =>
    let (v, state) := t.collapse value state
    value (.temporal q p v) state
  | untl q t u, state =>
    let (v, state) := t.collapse value state
    let (w, state) := u.collapse value state
    value (.untl q v w) state

/-- What a tree leaves behind among the values found: the defaults that were put
in place of its operands, and its own value. -/
def stretch (t : Tree) (v : α) : Array α :=
  (Array.replicate (t.size - 1) default).push v

theorem size_stretch (t : Tree) (v : α) : (t.stretch v).size = t.size := by
  have hPos := t.size_pos
  rw [stretch, Array.size_push, Array.size_replicate]
  omega

/-- The value of a tree is taken from the place of its root, and defaults are
left in all its places. -/
theorem takeValue_stretch (before after : Array α) (t : Tree) (v : α) :
    Formula.takeValue (before ++ t.stretch v ++ after) (t.rootFrom before.size) =
      (v, before ++ Array.replicate t.size default ++ after) := by
  obtain ⟨n, hn⟩ : ∃ n, t.size = n + 1 := Nat.exists_eq_add_one.mpr t.size_pos
  have hRoot : t.rootFrom before.size = (before ++ Array.replicate n default).size := by
    rw [rootFrom, hn, Array.size_append, Array.size_replicate]
    omega
  have hFound : before ++ t.stretch v ++ after =
      (before ++ Array.replicate n default).push v ++ after := by
    rw [stretch, hn, Nat.add_sub_cancel, Array.append_push]
  rw [hFound, hRoot, hn, Array.replicate_succ, Array.append_push, Formula.takeValue]
  refine Prod.ext ?_ ?_
  · rw [Array.getD_eq_getD_getElem?, Array.getElem?_append_left (by simp), Array.getElem?_push_size]
    rfl
  · apply Array.ext_getElem?
    intro i
    grind

/-- The same at the end of the array. -/
theorem takeValue_stretch_last (before : Array α) (t : Tree) (v : α) :
    Formula.takeValue (before ++ t.stretch v) (t.rootFrom before.size) =
      (v, before ++ Array.replicate t.size default) := by
  have hTake := takeValue_stretch before #[] t v
  rwa [Array.append_empty, Array.append_empty] at hTake

/-- Evaluating the nodes of a tree behind any values leaves these alone and adds
what the tree leaves behind. -/
def EvaluatesInPlace (value : Node α → σ → α × σ) (t : Tree) : Prop :=
  ∀ found state, (t.nodesFrom found.size).foldl (Formula.collapseStep value) (found, state) =
    (found ++ t.stretch (t.collapse value state).1, (t.collapse value state).2)

/-- A node behind two trees gets the values of both, and defaults stay in all
their places. -/
theorem EvaluatesInPlace.pair {value : Node α → σ → α × σ} {t u : Tree}
    (ht : t.EvaluatesInPlace value) (hu : u.EvaluatesInPlace value) (found : Array α) (state : σ) :
    let left := t.collapse value state
    let right := u.collapse value left.2
    let values := found ++ t.stretch left.1 ++ u.stretch right.1
    (t.nodesFrom found.size ++ u.nodesFrom (found.size + t.size)).foldl
        (Formula.collapseStep value) (found, state) = (values, right.2) ∧
      Formula.takeValue values (t.rootFrom found.size) =
        (left.1, found ++ Array.replicate t.size default ++ u.stretch right.1) ∧
      Formula.takeValue (found ++ Array.replicate t.size default ++ u.stretch right.1)
          (u.rootFrom (found.size + t.size)) =
        (right.1, found ++ Array.replicate (t.size + u.size) default) := by
  intro left right values
  have hSize : found.size + t.size = (found ++ t.stretch left.1).size := by
    rw [Array.size_append, size_stretch]
  have hSize' : (found ++ Array.replicate t.size (default : α)).size = found.size + t.size := by
    simp
  refine ⟨?_, takeValue_stretch found (u.stretch right.1) t left.1, ?_⟩
  · rw [List.foldl_append, ht, hSize, hu]
  · rw [← hSize', takeValue_stretch_last, Array.append_assoc, Array.replicate_append_replicate]

theorem evaluatesInPlace (value : Node α → σ → α × σ) (t : Tree) : t.EvaluatesInPlace value := by
  induction t with
  | atom name =>
    intro found state
    simp [nodesFrom, Formula.collapseStep, Node.mapAccum, stretch, collapse, size]
  | not t ih =>
    intro found state
    rw [nodesFrom, List.foldl_append, ih]
    simp only [List.foldl_cons, List.foldl_nil, Formula.collapseStep, Node.mapAccum,
      takeValue_stretch_last, collapse, ← Array.append_push]
    rfl
  | connective op t u iht ihu =>
    intro found state
    obtain ⟨hNodes, hLeft, hRight⟩ := iht.pair ihu found state
    rw [nodesFrom, List.foldl_append, hNodes]
    simp only [List.foldl_cons, List.foldl_nil, Formula.collapseStep, Node.mapAccum, hLeft, hRight,
      collapse, ← Array.append_push]
    rfl
  | temporal q p t ih =>
    intro found state
    rw [nodesFrom, List.foldl_append, ih]
    simp only [List.foldl_cons, List.foldl_nil, Formula.collapseStep, Node.mapAccum,
      takeValue_stretch_last, collapse, ← Array.append_push]
    rfl
  | untl q t u iht ihu =>
    intro found state
    obtain ⟨hNodes, hLeft, hRight⟩ := iht.pair ihu found state
    rw [nodesFrom, List.foldl_append, hNodes]
    simp only [List.foldl_cons, List.foldl_nil, Formula.collapseStep, Node.mapAccum, hLeft, hRight,
      collapse, ← Array.append_push]
    rfl

/-- Evaluating the layout of a tree is evaluating the tree. -/
theorem collapse_layout (value : Node α → σ → α × σ) (t : Tree) (state : σ) :
    t.layout.collapse value state = t.collapse value state := by
  have hFold := evaluatesInPlace value t #[] state
  rw [Array.size_empty, ← nodes_layout, Array.foldl_toList] at hFold
  rw [Formula.collapse, hFold, Array.empty_append]
  simp [stretch]

end Collapse

/-- The tree whose root is a node with trees as operands. -/
def ofNode : Node Tree → Tree
  | .atom name => atom name
  | .not t => not t
  | .connective op t u => connective op t u
  | .temporal q p t => temporal q p t
  | .untl q t u => untl q t u

theorem collapse_stateless {α : Type} (value : Node α → α) (t : Tree) :
    (t.collapse (fun node _ => (value node, ())) ()).1 = t.fold value := by
  induction t with
  | atom name => rfl
  | not t ih => simp only [collapse, fold, ih]
  | connective op t u iht ihu => simp only [collapse, fold, iht, ihu]
  | temporal q p t ih => simp only [collapse, fold, ih]
  | untl q t u iht ihu => simp only [collapse, fold, iht, ihu]

/-- Folding the layout of a tree is folding the tree. -/
theorem fold_layout {α : Type} [Inhabited α] (value : Node α → α) (t : Tree) :
    t.layout.fold value = t.fold value := by
  rw [Formula.fold, collapse_layout, collapse_stateless]

theorem fold_ofNode (t : Tree) : t.fold ofNode = t := by
  induction t with
  | atom name => rfl
  | not t ih => simp only [fold, ofNode, ih]
  | connective op t u iht ihu => simp only [fold, ofNode, iht, ihu]
  | temporal q p t ih => simp only [fold, ofNode, ih]
  | untl q t u iht ihu => simp only [fold, ofNode, iht, ihu]

/-- A formula lays out at most one tree: the tree is read back by a fold. -/
theorem layout_injective {t u : Tree} (h : t.layout = u.layout) : t = u := by
  rw [← fold_ofNode t, ← fold_layout, h, fold_layout, fold_ofNode]

theorem filterMap_atom?_nodesFrom (t : Tree) (start : Nat) :
    (t.nodesFrom start).filterMap Node.atom? = t.atoms := by
  induction t generalizing start with
  | atom name => rfl
  | not t ih => simp [nodesFrom, atoms, Node.atom?, ih]
  | connective op t u iht ihu => simp [nodesFrom, atoms, Node.atom?, iht, ihu]
  | temporal q p t ih => simp [nodesFrom, atoms, Node.atom?, ih]
  | untl q t u iht ihu => simp [nodesFrom, atoms, Node.atom?, iht, ihu]

theorem mem_atoms_layout {t : Tree} {name : String} : name ∈ t.layout.atoms ↔ name ∈ t.atoms := by
  rw [Formula.atoms, nodes_layout, filterMap_atom?_nodesFrom, Ascending.mem_ofList]

end Tree

end BranchingTime
