import BranchingTime.Proofs.Formula.RoundTrip
import Mathlib.Logic.ExistsUnique

/-!
# BranchingTime — formulas as trees

A formula is an array of nodes that refer to each other by places. However it
came about, by parsing, by building, or by building on what was parsed, its
nodes are one tree in post-order: no node is shared and none is left over. The
loop that evaluates a formula takes each value out of the place where it was
put, which is right only because of this.

## Results

* `Tree.pointsBack_nodesFrom`, `Tree.perm_operandsFrom` — the operands
  named in a stretch of nodes stand before the nodes that name them, and they
  are the places of the stretch except its last, each once.
* `Tree.collapse_recording` — the nodes that an evaluation is asked for carry
  the values of their operands.
* `Parser.resume_makes` — closing an operator lays out the tree it makes.
* `Formula.laysOut_obtained` — all of it together, for every formula.
-/

namespace BranchingTime

namespace Formula

-- ---------------------------------------------------------------------------
-- What a formula lays out
-- ---------------------------------------------------------------------------

/-- The nodes are those of the tree `t`, in post-order from left to right. -/
def LaysOut (f : Formula) (t : Tree) : Prop :=
  f.nodes.toList = t.nodesFrom 0

theorem laysOut_iff {f : Formula} {t : Tree} : f.LaysOut t ↔ f = t.layout := by
  have hNodes : f = t.layout ↔ f.nodes = t.layout.nodes := by
    cases f
    cases t.layout
    simp
  rw [hNodes, LaysOut, ← Tree.nodes_layout, Array.toList_inj]

/-- The references between the nodes are those of a tree: they point backwards,
and every node but the last one is referred to exactly once. -/
structure IsTreeShaped (f : Formula) : Prop where
  nonempty : 0 < f.size
  operands_lt : ∀ i < f.size, ∀ place ∈ (f.node i).operands, place < i
  parent_unique : ∀ place < f.root, ∃! i, i < f.size ∧ place ∈ (f.node i).operands
  operands_nodup : ∀ i < f.size, (f.node i).operands.Nodup

end Formula

namespace Tree

-- ---------------------------------------------------------------------------
-- References between nodes
-- ---------------------------------------------------------------------------

/-- The operands of nodes that stand from place `start` on come before them. -/
def PointsBack (start : Nat) (nodes : List (Node Nat)) : Prop :=
  ∀ i node, nodes[i]? = some node → ∀ place ∈ node.operands, place < start + i

theorem PointsBack.append {start : Nat} {left right : List (Node Nat)}
    (hLeft : PointsBack start left) (hRight : PointsBack (start + left.length) right) :
    PointsBack start (left ++ right) := by
  intro i node hNode place hPlace
  rw [List.getElem?_append] at hNode
  split at hNode
  · exact hLeft i node hNode place hPlace
  · have hBefore := hRight (i - left.length) node hNode place hPlace
    omega

theorem pointsBack_singleton {start : Nat} {node : Node Nat}
    (h : ∀ place ∈ node.operands, place < start) : PointsBack start [node] := by
  intro i found hFound place hPlace
  obtain ⟨hi, rfl⟩ := List.getElem?_eq_some_iff.mp hFound
  rw [List.getElem_singleton] at hPlace
  exact Nat.lt_add_right i (h place hPlace)

/-- The root of a stretch stands before whatever follows the stretch. -/
theorem rootFrom_lt (t : Tree) (start : Nat) : t.rootFrom start < start + t.size := by
  have hPos := t.size_pos
  unfold rootFrom
  omega

section Stretches

variable {start : Nat} {node : Node Nat} {t u : Tree}

theorem pointsBack_above (hOperands : node.operands = [t.rootFrom start])
    (ht : PointsBack start (t.nodesFrom start)) :
    PointsBack start (t.nodesFrom start ++ [node]) := by
  have hRoot := t.rootFrom_lt start
  refine ht.append (pointsBack_singleton ?_)
  rw [length_nodesFrom, hOperands]
  simpa using hRoot

theorem pointsBack_above_pair
    (hOperands : node.operands = [t.rootFrom start, u.rootFrom (start + t.size)])
    (ht : PointsBack start (t.nodesFrom start))
    (hu : PointsBack (start + t.size) (u.nodesFrom (start + t.size))) :
    PointsBack start (t.nodesFrom start ++ u.nodesFrom (start + t.size) ++ [node]) := by
  have hLeft := t.rootFrom_lt start
  have hRight := u.rootFrom_lt (start + t.size)
  rw [← t.length_nodesFrom start] at hu
  refine (ht.append ?_).append (pointsBack_singleton ?_)
  · rwa [t.length_nodesFrom start] at hu ⊢
  · rw [List.length_append, length_nodesFrom, length_nodesFrom, hOperands]
    simp only [List.mem_cons, List.not_mem_nil, or_false]
    omega

end Stretches

theorem pointsBack_nodesFrom (t : Tree) (start : Nat) : PointsBack start (t.nodesFrom start) := by
  induction t generalizing start with
  | atom name => exact pointsBack_singleton (by simp [Node.operands])
  | not t ih => exact pointsBack_above rfl (ih start)
  | connective op t u iht ihu => exact pointsBack_above_pair rfl (iht start) (ihu _)
  | temporal q p t ih => exact pointsBack_above rfl (ih start)
  | untl q t u iht ihu => exact pointsBack_above_pair rfl (iht start) (ihu _)

/-- The places of a stretch are those before its root, and the root. -/
theorem range'_size (t : Tree) (start : Nat) :
    List.range' start t.size = List.range' start (t.size - 1) ++ [t.rootFrom start] := by
  obtain ⟨n, hn⟩ : ∃ n, t.size = n + 1 := Nat.exists_eq_add_one.mpr t.size_pos
  rw [rootFrom, hn, List.range'_concat]
  simp

/-- The operands that the nodes of a stretch name. -/
def operandsFrom (start : Nat) (t : Tree) : List Nat :=
  (t.nodesFrom start).flatMap Node.operands

section Operands

variable {start : Nat} {t u : Tree}
variable (ht : (t.operandsFrom start).Perm (List.range' start (t.size - 1)))
include ht

/-- A node above a tree names its root, which completes the places of the tree. -/
theorem perm_operands_above :
    (t.operandsFrom start ++ [t.rootFrom start]).Perm (List.range' start t.size) := by
  rw [range'_size]
  exact ht.append_right _

theorem perm_operands_above_pair
    (hu : (u.operandsFrom (start + t.size)).Perm (List.range' (start + t.size) (u.size - 1))) :
    (t.operandsFrom start ++ u.operandsFrom (start + t.size) ++
      [t.rootFrom start, u.rootFrom (start + t.size)]).Perm
      (List.range' start (t.size + u.size)) := by
  have hBoth := (perm_operands_above ht).append (perm_operands_above hu)
  rw [List.range'_append_1] at hBoth
  refine List.Perm.trans ?_ hBoth
  -- the two roots are named together, after both trees
  rw [List.append_assoc, List.append_assoc]
  exact List.perm_middle.append_left _

end Operands

/-- The operands named in a stretch are its places except the last, each once. -/
theorem perm_operandsFrom (t : Tree) (start : Nat) :
    (t.operandsFrom start).Perm (List.range' start (t.size - 1)) := by
  induction t generalizing start with
  | atom name => exact List.Perm.nil
  | not t ih =>
    rw [operandsFrom, nodesFrom, List.flatMap_append]
    exact perm_operands_above (ih start)
  | connective op t u iht ihu =>
    rw [operandsFrom, nodesFrom, List.flatMap_append, List.flatMap_append]
    exact perm_operands_above_pair (iht start) (ihu _)
  | temporal q p t ih =>
    rw [operandsFrom, nodesFrom, List.flatMap_append]
    exact perm_operands_above (ih start)
  | untl q t u iht ihu =>
    rw [operandsFrom, nodesFrom, List.flatMap_append, List.flatMap_append]
    exact perm_operands_above_pair (iht start) (ihu _)

end Tree

namespace Formula

section Shape

variable {f : Formula} {t : Tree}

theorem LaysOut.size_eq (h : f.LaysOut t) : f.size = t.size := by
  rw [size, ← Array.length_toList, h, Tree.length_nodesFrom]

theorem LaysOut.getElem?_eq (h : f.LaysOut t) {i : Nat} (hi : i < f.size) :
    (t.nodesFrom 0)[i]? = some (f.node i) := by
  rw [← h, Array.getElem?_toList, node, Array.getElem?_eq_getElem hi]
  simp [Array.getElem?_eq_getElem hi]

/-- If no operand is named twice, only one node names it. -/
theorem parent_eq {nodes : List (Node Nat)} (hNodup : (nodes.flatMap Node.operands).Nodup)
    {i j : Nat} {a b : Node Nat} (hi : nodes[i]? = some a) (hj : nodes[j]? = some b) {place : Nat}
    (ha : place ∈ a.operands) (hb : place ∈ b.operands) : i = j := by
  obtain ⟨hi', rfl⟩ := List.getElem?_eq_some_iff.mp hi
  obtain ⟨hj', rfl⟩ := List.getElem?_eq_some_iff.mp hj
  have hApart := (List.pairwise_flatMap.mp hNodup).2
  rw [List.pairwise_iff_getElem] at hApart
  rcases Nat.lt_trichotomy i j with hij | hij | hij
  · exact absurd rfl (hApart i j hi' hj' hij place ha place hb)
  · exact hij
  · exact absurd rfl (hApart j i hj' hi' hij place hb place ha)

theorem LaysOut.isTreeShaped (h : f.LaysOut t) : f.IsTreeShaped := by
  have hSize := h.size_eq
  have hPerm := t.perm_operandsFrom 0
  have hNodup : (t.operandsFrom 0).Nodup := hPerm.nodup_iff.mpr List.nodup_range'
  constructor
  case nonempty =>
    rw [hSize]
    exact t.size_pos
  case operands_lt =>
    intro i hi place hPlace
    have hBefore := t.pointsBack_nodesFrom 0 i (f.node i) (h.getElem?_eq hi) place hPlace
    omega
  case parent_unique =>
    intro place hPlace
    have hMem : place ∈ t.operandsFrom 0 := by
      rw [hPerm.mem_iff, List.mem_range'_1]
      unfold root at hPlace
      unfold size at hSize
      omega
    obtain ⟨parent, hParent, hOperand⟩ := List.mem_flatMap.mp hMem
    obtain ⟨i, hi⟩ := List.mem_iff_getElem?.mp hParent
    have hLt : i < f.size := by
      rw [hSize, ← t.length_nodesFrom 0]
      exact (List.getElem?_eq_some_iff.mp hi).1
    have hHere : parent = f.node i := Option.some.inj (hi.symm.trans (h.getElem?_eq hLt))
    refine ⟨i, ⟨hLt, hHere ▸ hOperand⟩, ?_⟩
    rintro j ⟨hj, hOther⟩
    exact parent_eq hNodup (h.getElem?_eq hj) hi hOther hOperand
  case operands_nodup =>
    intro i hi
    have hEach := (List.pairwise_flatMap.mp hNodup).1
    exact hEach _ (List.mem_of_getElem? (h.getElem?_eq hi))

end Shape

end Formula

-- ---------------------------------------------------------------------------
-- Evaluation
-- ---------------------------------------------------------------------------

namespace Tree

section Calls

variable {α σ : Type}

/-- Evaluates a node, and notes it behind the nodes evaluated before. -/
def recording (value : Node α → σ → α × σ) (node : Node α) (progress : σ × List (Node α)) :
    α × σ × List (Node α) :=
  let (result, state) := value node progress.1
  (result, state, progress.2 ++ [node])

/-- The nodes that come up when a tree is evaluated, operands first, each with
the values that its operands were evaluated to. -/
def calls (value : Node α → σ → α × σ) : Tree → σ → List (Node α)
  | atom name, _ => [.atom name]
  | not t, state => t.calls value state ++ [.not (t.collapse value state).1]
  | connective op t u, state =>
    let left := t.collapse value state
    t.calls value state ++ u.calls value left.2 ++
      [.connective op left.1 (u.collapse value left.2).1]
  | temporal q p t, state => t.calls value state ++ [.temporal q p (t.collapse value state).1]
  | untl q t u, state =>
    let left := t.collapse value state
    t.calls value state ++ u.calls value left.2 ++ [.untl q left.1 (u.collapse value left.2).1]

theorem length_calls (value : Node α → σ → α × σ) (t : Tree) (state : σ) :
    (t.calls value state).length = t.size := by
  induction t generalizing state with
  | atom name => rfl
  | not t ih => simp [calls, size, ih]
  | connective op t u iht ihu => simp [calls, size, iht, ihu, Nat.add_assoc]
  | temporal q p t ih => simp [calls, size, ih]
  | untl q t u iht ihu => simp [calls, size, iht, ihu, Nat.add_assoc]

/-- Noting the nodes changes nothing else, and notes the calls. -/
theorem collapse_recording (value : Node α → σ → α × σ) (t : Tree) (state : σ)
    (seen : List (Node α)) :
    t.collapse (recording value) (state, seen) =
      ((t.collapse value state).1, (t.collapse value state).2, seen ++ t.calls value state) := by
  induction t generalizing state seen with
  | atom name => rfl
  | not t ih => simp only [collapse, recording, ih, calls, List.append_assoc]
  | connective op t u iht ihu =>
    simp only [collapse, recording, iht, ihu, calls, List.append_assoc]
  | temporal q p t ih => simp only [collapse, recording, ih, calls, List.append_assoc]
  | untl q t u iht ihu => simp only [collapse, recording, iht, ihu, calls, List.append_assoc]

theorem fold_height (t : Tree) :
    t.fold (fun node => node.operands.foldl max 0 + 1) = t.height := by
  induction t with
  | atom name => rfl
  | not t ih =>
    rw [fold, ih]
    simp [Node.operands, height]
  | connective op t u iht ihu =>
    rw [fold, iht, ihu]
    simp [Node.operands, height]
  | temporal q p t ih =>
    rw [fold, ih]
    simp [Node.operands, height]
  | untl q t u iht ihu =>
    rw [fold, iht, ihu]
    simp [Node.operands, height]

end Calls

end Tree

namespace Formula

/-- Evaluating a formula is evaluating a tree, whatever is computed: the results
agree, and so do the nodes that come up on the way. A node comes up with the
values that its operands were evaluated to, never with what is left in a place
after its value was taken. -/
structure EvaluatesLike (f : Formula) (t : Tree) : Prop where
  collapse : ∀ {α σ : Type} [Inhabited α] (value : Node α → σ → α × σ) (state : σ),
    f.collapse value state = t.collapse value state
  fold : ∀ {α : Type} [Inhabited α] (value : Node α → α), f.fold value = t.fold value
  calls : ∀ {α σ : Type} [Inhabited α] (value : Node α → σ → α × σ) (state : σ),
    (f.collapse (Tree.recording value) (state, [])).2.2 = t.calls value state
  length_calls : ∀ {α σ : Type} (value : Node α → σ → α × σ) (state : σ),
    (t.calls value state).length = f.size
  depth : f.depth = t.height

theorem LaysOut.evaluatesLike {f : Formula} {t : Tree} (h : f.LaysOut t) : f.EvaluatesLike t := by
  have hSize := h.size_eq
  obtain rfl := laysOut_iff.mp h
  constructor
  case collapse => exact fun value state => t.collapse_layout value state
  case fold => exact fun value => t.fold_layout value
  case calls =>
    intro α σ _ value state
    rw [t.collapse_layout, t.collapse_recording, List.nil_append]
  case length_calls =>
    intro α σ value state
    rw [hSize, t.length_calls]
  case depth => exact (t.fold_layout _).trans t.fold_height

end Formula

-- ---------------------------------------------------------------------------
-- Closing operators
-- ---------------------------------------------------------------------------

namespace Formula.Parser

/-- What a waiting operator makes of the operand it waits for. Behind the nodes
`earlier` stands its left operand, if it has one; the two together are the nodes
`before`. -/
inductive Makes (earlier : List (Node Nat)) :
    (frame : Frame) → (before : List (Node Nat)) → (make : Tree → Tree) → Prop where
  | not : Makes earlier .not earlier .not
  | group : Makes earlier .group earlier id
  | connective (op : Connective) (t : Tree) :
      Makes earlier (.connective op (t.rootFrom earlier.length))
        (earlier ++ t.nodesFrom earlier.length) (.connective op t)
  | temporal (q : Quantifier) (p : PathOperator) :
      Makes earlier (.temporal q p) earlier (.temporal q p)
  | untlRight (q : Quantifier) (t : Tree) :
      Makes earlier (.untlRight q (t.rootFrom earlier.length))
        (earlier ++ t.nodesFrom earlier.length) (.untl q t)

/-- When an operand is complete, the operator above it goes on with a connective,
or it is closed, and the nodes then end with the tree that it makes. -/
theorem resume_makes {earlier before : List (Node Nat)} {frame : Frame} {make : Tree → Tree}
    (hMakes : Makes earlier frame before make) {nodes : Array (Node Nat)} {t : Tree}
    (hNodes : EndsWith nodes before t) {found : LocatedToken} {stack : List Frame} {next : Parser}
    (hNext : resume found nodes (frame :: stack) = .ok next) :
    (∃ op, found.token = .connective op ∧ next = openConnective op nodes (frame :: stack)) ∨
      ∃ nodes', EndsWith nodes' earlier (make t) ∧
        (resume found nodes' stack = .ok next ∨
          next = { nodes := nodes', stack, phase := .continuation }) := by
  cases hMakes with
  | not =>
    rw [resume] at hNext
    split at hNext
    · rename_i op hToken
      exact .inl ⟨op, hToken, (Except.ok.inj hNext).symm⟩
    · exact .inr ⟨_, hNodes.push_not, .inl hNext⟩
  | group =>
    rw [resume] at hNext
    split at hNext
    · rename_i op hToken
      exact .inl ⟨op, hToken, (Except.ok.inj hNext).symm⟩
    · exact .inr ⟨nodes, hNodes, .inr (Except.ok.inj hNext).symm⟩
    · cases hNext
  | connective op u =>
    rw [resume] at hNext
    split at hNext
    · rename_i op' hToken
      exact .inl ⟨op', hToken, (Except.ok.inj hNext).symm⟩
    · exact .inr ⟨_, hNodes.push_connective op, .inl hNext⟩
  | temporal q p => exact .inr ⟨_, hNodes.push_temporal q p, .inl hNext⟩
  | untlRight q u =>
    rw [resume] at hNext
    split at hNext
    · exact .inr ⟨_, hNodes.push_untl q, .inr (Except.ok.inj hNext).symm⟩
    · cases hNext

end Formula.Parser

-- ---------------------------------------------------------------------------
-- All formulas
-- ---------------------------------------------------------------------------

namespace Formula

open BranchingTime.Formula.Parser (Makes EndsWith resume openConnective)

theorem laysOut_layout (t : Tree) : t.layout.LaysOut t :=
  laysOut_iff.mpr rfl

/-- **Formulas are trees.** Whatever was parsed and built, a formula is
tree-shaped and lays out exactly one tree. Building lays out the tree that is
meant, parsing a tree that the tokens of the text can be read as, and in it
closing an operator the tree that the operator makes. Formulas are equal iff
their trees are, and a formula is evaluated like its tree. -/
theorem laysOut_obtained :
    (∀ f : Formula, f.IsObtained → f.IsTreeShaped ∧ ∃! t, f.LaysOut t) ∧
    (∀ name, (Formula.atom name).LaysOut (.atom name)) ∧
    (∀ (f g : Formula) (t u : Tree), f.LaysOut t → g.LaysOut u →
      f.not.LaysOut (.not t) ∧
      (∀ op, (f.connect op g).LaysOut (.connective op t u)) ∧
      (∀ q p, (f.temporal q p).LaysOut (.temporal q p t)) ∧
      (∀ q, (f.untl q g).LaysOut (.untl q t u)) ∧
      (f = g ↔ t = u)) ∧
    (∀ text f, parse text = .ok f →
      ∃ tokens t, (tokenize text).map LocatedToken.token = tokens ++ [.endOfText] ∧
        IsFormula tokens t ∧ f.LaysOut t) ∧
    (∀ earlier before frame make, Makes earlier frame before make →
      ∀ nodes t, EndsWith nodes before t →
      ∀ found stack next, resume found nodes (frame :: stack) = .ok next →
        (∃ op, found.token = .connective op ∧ next = openConnective op nodes (frame :: stack)) ∨
          ∃ nodes', EndsWith nodes' earlier (make t) ∧
            (resume found nodes' stack = .ok next ∨
              next = { nodes := nodes', stack, phase := .continuation })) ∧
    ∀ (f : Formula) (t : Tree), f.LaysOut t → f.EvaluatesLike t := by
  refine ⟨?_, fun name => rfl, ?_, ?_, ?_, fun f t h => h.evaluatesLike⟩
  · intro f hf
    obtain ⟨t, rfl⟩ := hf.exists_layout
    have hLaysOut := laysOut_layout t
    refine ⟨hLaysOut.isTreeShaped, t, hLaysOut, ?_⟩
    intro u hu
    exact (Tree.layout_injective (laysOut_iff.mp hu)).symm
  · intro f g t u hf hg
    obtain rfl := laysOut_iff.mp hf
    obtain rfl := laysOut_iff.mp hg
    refine ⟨laysOut_layout (.not t), fun op => laysOut_layout (.connective op t u),
      fun q p => laysOut_layout (.temporal q p t), fun q => laysOut_layout (.untl q t u), ?_⟩
    exact ⟨Tree.layout_injective, fun h => by rw [h]⟩
  · intro text f hParse
    obtain ⟨tokens, hTokens, hInside⟩ := Token.lex_eq_append text.toList
    obtain ⟨t, hFormula, hLayout⟩ := isFormula_of_parse hTokens (fun h => hInside _ h) hParse
    exact ⟨tokens, t, hTokens, hFormula, laysOut_iff.mpr hLayout⟩
  · intro earlier before frame make hMakes nodes t hNodes found stack next hNext
    exact Parser.resume_makes hMakes hNodes hNext

/-- What `NOT (p AND p)` is parsed as, in an until with one more `p`: the three
atoms are three nodes, and a count of the atoms meets each of them. -/
theorem laysOut_repeated_atom :
    ∃ f, parse "NOT (p AND p)" = .ok f ∧
      let g := f.untl .all (atom "p")
      let t : Tree := .untl .all (.not (.connective .and (.atom "p") (.atom "p"))) (.atom "p")
      g.IsObtained ∧ g.IsTreeShaped ∧ g.LaysOut t ∧ g.size = 6 ∧ g.depth = 4 ∧
        g.fold (fun node => node.operands.foldl (· + ·) (if node.atom?.isSome then 1 else 0)) = 3 ∧
        ∃ nodes, EndsWith nodes [] (.not (.atom "p")) ∧
          resume ⟨.endOfText, 5⟩ nodes [] = resume ⟨.endOfText, 5⟩ #[.atom "p"] [.not] := by
  let negated : Tree := .not (.connective .and (.atom "p") (.atom "p"))
  have hParse : parse "NOT (p AND p)" = .ok negated.layout := parse_render negated (by decide)
  obtain ⟨hAll, hAtom, hBuild, -, hClose, hEval⟩ := laysOut_obtained
  have hObtained : (negated.layout.untl .all (atom "p")).IsObtained :=
    .untl .all (.parse hParse) (.atom "p")
  have hLaysOut := (hBuild _ _ negated _ (laysOut_layout negated) (hAtom "p")).2.2.2.1 .all
  have hLike := hEval _ _ hLaysOut
  refine ⟨_, hParse, hObtained, (hAll _ hObtained).1, hLaysOut, hLaysOut.size_eq, hLike.depth,
    ?_, ?_⟩
  · rw [hLike.fold]
    rfl
  · rcases hClose [] [] .not .not .not #[.atom "p"] (.atom "p") rfl ⟨.endOfText, 5⟩ [] _ rfl with
      ⟨op, hToken, -⟩ | ⟨nodes, hNodes, hNext | hNext⟩
    · cases hToken
    · exact ⟨nodes, hNodes, hNext⟩
    · cases hNext

end Formula

end BranchingTime
