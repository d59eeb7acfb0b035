import BranchingTime.Proofs.Check.Correctness
import BranchingTime.Proofs.Formula.Arena

/-!
# BranchingTime — what checking costs

A fixpoint is computed by steps that only add positions, until one of them adds
nothing. So it takes at most one step more than positions are missing at the
start. That is as many steps as there are states, unless the start is empty; but
then the very first step adds nothing, because a dead end is no predecessor of
the empty set.

`Settles` describes the loop without a bound. The evaluation has one built in,
which is never reached. Which loops a node takes, and from which sets, is told by
its operator and by the values of its operands: these are the sets that the check
itself found in their places.

## Results

* `evaluations_check` — every node is evaluated at the values of its operands.
* `iterate_settles`, `leastFixpoint_settles`, `Loop.comesTo_run` — one loop.
* `fixpoints_evaluateNode` — the loops of one node.
* `cost_check` — the counters of a check.
-/

namespace BranchingTime

-- ---------------------------------------------------------------------------
-- Operators with fixpoints
-- ---------------------------------------------------------------------------

namespace Node

/-- Does the operator take one fixpoint? These are `EF`, `AF`, `EG`, `AG` and
`E(_ U _)`. -/
def takesOne {ρ : Type} : Node ρ → Bool
  | temporal _ .eventually _ => true
  | temporal _ .always _ => true
  | untl .some _ _ => true
  | _ => false

/-- Does the operator take two fixpoints? Only `A(_ U _)` does. -/
def takesTwo {ρ : Type} : Node ρ → Bool
  | untl .all _ _ => true
  | _ => false

/-- The operator alone tells, whatever its operands are. -/
theorem takesOne_map {ρ σ : Type} (f : ρ → σ) (node : Node ρ) :
    (node.map f).takesOne = node.takesOne := by
  cases node with
  | temporal q p x => cases p <;> rfl
  | untl q x y => cases q <;> rfl
  | _ => rfl

theorem takesTwo_map {ρ σ : Type} (f : ρ → σ) (node : Node ρ) :
    (node.map f).takesTwo = node.takesTwo := by
  cases node with
  | untl q x y => cases q <;> rfl
  | _ => rfl

end Node

-- ---------------------------------------------------------------------------
-- The values of operands
-- ---------------------------------------------------------------------------

theorem Node.operands_map {ρ σ : Type} (f : ρ → σ) (node : Node ρ) :
    (node.map f).operands = node.operands.map f := by
  cases node <;> rfl

namespace Tree

section Values

variable {α σ : Type} {value : Node α → σ → α × σ} {eval : Node α → α} {found : Nat → α}
variable {start : Nat} {before after : List (Node α)} {node : Node α}
variable {t u : Tree} {state state' : σ}

/-- From place `start` on, `found` has the values of the nodes. -/
def HasValues (eval : Node α → α) (found : Nat → α) (start : Nat) (nodes : List (Node α)) : Prop :=
  ∀ i node, nodes[i]? = some node → found (start + i) = eval node

theorem HasValues.left (h : HasValues eval found start (before ++ after)) :
    HasValues eval found start before := by
  intro i node hNode
  refine h i node ?_
  rwa [List.getElem?_append_left (List.getElem?_eq_some_iff.mp hNode).1]

theorem HasValues.right (h : HasValues eval found start (before ++ after)) :
    HasValues eval found (start + before.length) after := by
  intro i node hNode
  rw [Nat.add_assoc]
  refine h (before.length + i) node ?_
  rwa [List.getElem?_append_right (Nat.le_add_right _ _), Nat.add_sub_cancel_left]

theorem HasValues.above (h : HasValues eval found start (t.calls value state ++ [node])) :
    HasValues eval found start (t.calls value state) ∧ eval node = found (start + t.size) := by
  have hLast := h.right 0 node rfl
  rw [length_calls] at hLast
  exact ⟨h.left, hLast.symm⟩

theorem HasValues.above_pair
    (h : HasValues eval found start (t.calls value state ++ u.calls value state' ++ [node])) :
    HasValues eval found start (t.calls value state) ∧
      HasValues eval found (start + t.size) (u.calls value state') ∧
      eval node = found (start + (t.size + u.size)) := by
  have hRight := h.left.right
  have hLast := h.right 0 node rfl
  rw [length_calls] at hRight
  rw [List.length_append, length_calls, length_calls] at hLast
  exact ⟨h.left.left, hRight, hLast.symm⟩

/-- When a tree is evaluated, its nodes come up as they are laid out, each with the
values that stand in the places of its operands. -/
theorem calls_eq_map (hEval : ∀ node state, (value node state).1 = eval node) (t : Tree) (state : σ)
    (h : HasValues eval found start (t.calls value state)) :
    t.calls value state = (t.nodesFrom start).map (Node.map found) ∧
      (t.collapse value state).1 = found (t.rootFrom start) := by
  induction t generalizing state start with
  | atom name => exact ⟨rfl, (hEval _ _).trans (h 0 _ rfl).symm⟩
  | not t ih =>
    obtain ⟨hBelow, hRoot⟩ := h.above
    obtain ⟨hNodes, hValue⟩ := ih state hBelow
    refine ⟨?_, (hEval _ _).trans hRoot⟩
    simp [calls, nodesFrom, Node.map, hNodes, hValue]
  | connective op t u iht ihu =>
    obtain ⟨hLeft, hRight, hRoot⟩ := h.above_pair
    obtain ⟨hNodes, hValue⟩ := iht state hLeft
    obtain ⟨hNodes', hValue'⟩ := ihu (t.collapse value state).2 hRight
    refine ⟨?_, (hEval _ _).trans hRoot⟩
    simp [calls, nodesFrom, Node.map, hNodes, hValue, hNodes', hValue']
  | temporal q p t ih =>
    obtain ⟨hBelow, hRoot⟩ := h.above
    obtain ⟨hNodes, hValue⟩ := ih state hBelow
    refine ⟨?_, (hEval _ _).trans hRoot⟩
    simp [calls, nodesFrom, Node.map, hNodes, hValue]
  | untl q t u iht ihu =>
    obtain ⟨hLeft, hRight, hRoot⟩ := h.above_pair
    obtain ⟨hNodes, hValue⟩ := iht state hLeft
    obtain ⟨hNodes', hValue'⟩ := ihu (t.collapse value state).2 hRight
    refine ⟨?_, (hEval _ _).trans hRoot⟩
    simp [calls, nodesFrom, Node.map, hNodes, hValue, hNodes', hValue']

end Values

end Tree

namespace Model

variable {m : Model}

-- ---------------------------------------------------------------------------
-- Loops
-- ---------------------------------------------------------------------------

/-- Taking steps until one changes nothing leads from the first set to the second
one. The number counts the steps, with the one that changes nothing. -/
inductive Settles (step : BitSet → BitSet) : BitSet → Nat → BitSet → Prop where
  | stop {X : BitSet} : (step X == X) = true → Settles step X 1 X
  | next {X Y : BitSet} {n : Nat} :
      (step X == X) = false → Settles step (step X) n Y → Settles step X (n + 1) Y

theorem Settles.pos {step : BitSet → BitSet} {X Y : BitSet} {n : Nat} (h : Settles step X n Y) :
    1 ≤ n := by
  cases h with
  | stop _ => exact Nat.le_refl 1
  | next _ _ => exact Nat.le_add_left 1 _

theorem Settles.eq_one {step : BitSet → BitSet} {X Y : BitSet} {n : Nat} (h : Settles step X n Y)
    (hSame : (step X == X) = true) : n = 1 := by
  cases h with
  | stop _ => rfl
  | next hOther _ => exact absurd (hSame.symm.trans hOther) (by decide)

/-- A set of positions of the model, with the right number of members. -/
structure IsInside (m : Model) (X : BitSet) : Prop where
  lt_size : ∀ i, X.contains i = true → i < m.size
  isCounted : X.IsCounted

/-- A step that adds positions of the model, and takes none away. -/
structure IsExpanding (m : Model) (step : BitSet → BitSet) : Prop where
  grows : ∀ X i, X.contains i = true → (step X).contains i = true
  isInside : ∀ X, m.IsInside X → m.IsInside (step X)

section Loops

variable {step : BitSet → BitSet} (hStep : m.IsExpanding step)
include hStep

/-- A step that changes a set adds a position: nothing is taken away. -/
theorem IsExpanding.exists_new {X : BitSet} (hX : m.IsInside X) (hOther : (step X == X) = false) :
    ∃ i, (step X).contains i = true ∧ X.contains i = false := by
  obtain ⟨i, hi⟩ : ∃ i, (step X).contains i ≠ X.contains i := by
    refine Classical.not_forall.mp fun hSame => ?_
    rw [BitSet.beq_of_contains (hStep.isInside X hX).isCounted hX.isCounted hSame] at hOther
    cases hOther
  have hOld : X.contains i = false := by
    refine Bool.eq_false_iff.mpr fun hMem => hi ?_
    rw [hMem, hStep.grows X i hMem]
  rw [hOld, ne_eq, Bool.not_eq_false] at hi
  exact ⟨i, hi, hOld⟩

/-- A step that changes a set fills a missing position. -/
theorem IsExpanding.missing_lt {X : BitSet} (hX : m.IsInside X) (hOther : (step X == X) = false) :
    m.missing (step X) < m.missing X := by
  obtain ⟨i, hNew, hOld⟩ := hStep.exists_new hX hOther
  exact Model.missing_lt (hStep.grows X) ((hStep.isInside X hX).lt_size i hNew) hNew hOld

/-- An iteration that may take more steps than there are missing positions is the
loop without a bound. -/
theorem iterate_settles {fuel : Nat} {X : BitSet} (hX : m.IsInside X) (hFuel : m.missing X < fuel) :
    Settles step X (iterate step fuel X).2 (iterate step fuel X).1 ∧
      (iterate step fuel X).2 ≤ m.missing X + 1 ∧ m.IsInside (iterate step fuel X).1 := by
  induction fuel generalizing X with
  | zero => exact absurd hFuel (Nat.not_lt_zero _)
  | succ fuel ih =>
    rw [iterate]
    dsimp only
    split
    · rename_i hSame
      exact ⟨.stop hSame, Nat.le_add_left 1 _, hX⟩
    · rename_i hOther
      rw [Bool.not_eq_true] at hOther
      have hLess := hStep.missing_lt hX hOther
      obtain ⟨hSettles, hLe, hInside⟩ := ih (hStep.isInside X hX) (by omega)
      exact ⟨.next hOther hSettles, by omega, hInside⟩

/-- The fixpoint from a set takes at most as many steps as there are states, if
nothing comes of nothing. -/
theorem leastFixpoint_settles (kind : FixpointKind) {start : BitSet} (hStart : m.IsInside start)
    (hEmpty : (∀ i, start.contains i = false) → ∀ i, (step start).contains i = false) :
    let x := m.leastFixpoint kind step start
    Settles step start x.iterations x.result ∧ x.iterations ≤ max m.size 1 ∧
      m.IsInside x.result := by
  intro x
  have hFuel : m.missing start < m.size + 1 := Nat.lt_succ_of_le (m.missing_le start)
  obtain ⟨hSettles, hLe, hInside⟩ := iterate_settles hStep hStart hFuel
  refine ⟨hSettles, ?_, hInside⟩
  by_cases hSome : ∃ i, start.contains i = true
  · obtain ⟨i, hi⟩ := hSome
    have hLess : m.missing start < m.missing (.withCapacity 0) :=
      Model.missing_lt (by simp) (hStart.lt_size i hi) hi (BitSet.contains_withCapacity 0 i)
    have hAll := m.missing_le (.withCapacity 0)
    show (iterate step (m.size + 1) start).2 ≤ _
    omega
  · have hNone : ∀ i, start.contains i = false := fun i =>
      Bool.eq_false_iff.mpr fun hi => hSome ⟨i, hi⟩
    have hSame : (step start == start) = true :=
      BitSet.beq_of_contains (hStep.isInside start hStart).isCounted hStart.isCounted fun i => by
        rw [hNone i, hEmpty hNone i]
    show (iterate step (m.size + 1) start).2 ≤ _
    rw [hSettles.eq_one hSame]
    exact Nat.le_max_right _ _

end Loops

-- ---------------------------------------------------------------------------
-- Sets of positions
-- ---------------------------------------------------------------------------

section Positions

variable {X Y : BitSet}

theorem isInside_positionsWhere (m : Model) (condition : State → Bool) :
    m.IsInside (m.positionsWhere condition) where
  lt_size i hi := by
    rw [positionsWhere, BitSet.contains_insertMany, BitSet.contains_withCapacity, Bool.or_false,
      decide_eq_true_eq] at hi
    exact List.mem_range.mp (List.mem_filter.mp hi).1
  isCounted := (BitSet.isCounted_withCapacity m.size).insertMany _

theorem isInside_pre (m : Model) (q : Quantifier) (X : BitSet) : m.IsInside (m.pre q X) := by
  cases q with
  | some => exact m.isInside_positionsWhere _
  | all => exact m.isInside_positionsWhere _

theorem IsInside.inter (hX : m.IsInside X) (Y : BitSet) : m.IsInside (X.inter Y) where
  lt_size i hi := by
    rw [BitSet.contains_inter, Bool.and_eq_true] at hi
    exact hX.lt_size i hi.1
  isCounted := BitSet.isCounted_ofWords _

theorem IsInside.union (hX : m.IsInside X) (hY : m.IsInside Y) : m.IsInside (X.union Y) where
  lt_size i hi := by
    rw [BitSet.contains_union, Bool.or_eq_true] at hi
    exact hi.elim (hX.lt_size i) (hY.lt_size i)
  isCounted := BitSet.isCounted_ofWords _

theorem isExpanding_someUntilStep (m : Model) (allowed : BitSet) :
    m.IsExpanding (m.someUntilStep allowed) where
  grows X i hi := by rw [someUntilStep, BitSet.contains_union, hi, Bool.or_true]
  isInside X hX := ((m.isInside_pre .some X).inter allowed).union hX

theorem isExpanding_allEventuallyStep (m : Model) : m.IsExpanding m.allEventuallyStep where
  grows X i hi := by rw [allEventuallyStep, BitSet.contains_union, hi, Bool.or_true]
  isInside X hX := (m.isInside_pre .all X).union hX

end Positions

-- ---------------------------------------------------------------------------
-- The loops of a node
-- ---------------------------------------------------------------------------

/-- A loop of the checker, with the sets that it is given. -/
inductive Loop where
  | someUntil (allowed goal : BitSet)
  | allEventually (goal : BitSet)

namespace Loop

/-- The fixpoint that the loop computes. -/
def kind : Loop → FixpointKind
  | someUntil .. => .someUntil
  | allEventually _ => .allEventually

/-- The set that the loop starts from. -/
def start : Loop → BitSet
  | someUntil _ goal => goal
  | allEventually goal => goal

/-- One step of the loop. -/
def step (m : Model) : Loop → BitSet → BitSet
  | someUntil allowed _ => m.someUntilStep allowed
  | allEventually _ => m.allEventuallyStep

/-- What the checker computes for the loop. -/
def run (m : Model) (loop : Loop) : Fixpoint :=
  m.leastFixpoint loop.kind (loop.step m) loop.start

theorem run_someUntil (m : Model) (allowed goal : BitSet) :
    (someUntil allowed goal).run m = m.someUntil allowed goal :=
  rfl

theorem run_allEventually (m : Model) (goal : BitSet) :
    (allEventually goal).run m = m.allEventually goal :=
  rfl

/-- The fixpoint is what the loop comes to: from its start, steps are taken until
one of them changes nothing, and all of them were counted. -/
structure ComesTo (m : Model) (loop : Loop) (x : Fixpoint) : Prop where
  kind : x.kind = loop.kind
  settles : Settles (loop.step m) loop.start x.iterations x.result

theorem isExpanding_step (m : Model) (loop : Loop) : m.IsExpanding (loop.step m) := by
  cases loop with
  | someUntil allowed goal => exact m.isExpanding_someUntilStep allowed
  | allEventually goal => exact m.isExpanding_allEventuallyStep

end Loop

/-- The loops that a node takes, for the values of its operands. -/
def loops (m : Model) : Node BitSet → List Loop
  | .temporal .some .eventually φ => [.someUntil m.allPositions φ]
  | .temporal .all .eventually φ => [.allEventually φ]
  | .temporal .some .always φ => [.allEventually (m.complement φ)]
  | .temporal .all .always φ => [.someUntil m.allPositions (m.complement φ)]
  | .untl .some φ ψ => [.someUntil φ ψ]
  | .untl .all φ ψ =>
    [.someUntil (m.complement ψ) ((m.complement φ).inter (m.complement ψ)),
      .allEventually (m.complement (m.complement ψ))]
  | _ => []

theorem length_loops (m : Model) (node : Node BitSet) :
    (m.loops node).length = node.takesOne.toNat + 2 * node.takesTwo.toNat := by
  cases node with
  | temporal q p φ => cases p <;> cases q <;> rfl
  | untl q φ ψ => cases q <;> rfl
  | _ => rfl

theorem fixpoints_evaluateNode (m : Model) (node : Node BitSet) :
    (m.evaluateNode node).fixpoints = (m.loops node).map (Loop.run m) := by
  cases node with
  | temporal q p φ => cases p <;> cases q <;> rfl
  | untl q φ ψ => cases q <;> rfl
  | _ => rfl

/-- The operands of the node were evaluated to positions of the model. -/
def HasInside (m : Model) (node : Node BitSet) : Prop :=
  ∀ X ∈ node.operands, m.IsInside X

section Built

variable {accepted : List Builder.Call} (hm : m.IsBuiltFrom accepted)
include hm

/-- Nothing leads into the empty set. -/
theorem pre_of_empty (q : Quantifier) {X : BitSet} (hX : ∀ i, X.contains i = false) (i : Nat) :
    (m.pre q X).contains i = false := by
  have hNone : m.Represents X fun _ => False := fun i => by simp [hX i]
  rw [Bool.eq_false_iff]
  intro hi
  cases q with
  | some =>
    obtain ⟨id, -, t, -, hFalse⟩ := (hNone.pre_some hm i).mp hi
    exact hFalse
  | all =>
    obtain ⟨id, -, ⟨t, ht⟩, hAll⟩ := (hNone.pre_all hm i).mp hi
    exact hAll t ht

theorem Loop.step_of_empty (loop : Loop) {X : BitSet} (hX : ∀ i, X.contains i = false) (i : Nat) :
    (loop.step m X).contains i = false := by
  cases loop with
  | someUntil allowed goal =>
    rw [step, someUntilStep, BitSet.contains_union, BitSet.contains_inter, hX i,
      pre_of_empty hm .some hX i]
    rfl
  | allEventually goal =>
    rw [step, allEventuallyStep, BitSet.contains_union, hX i, pre_of_empty hm .all hX i]
    rfl

/-- From a set of positions of the model, a loop is run to its end. -/
theorem Loop.comesTo_run {loop : Loop} (hStart : m.IsInside loop.start) :
    loop.ComesTo m (loop.run m) ∧ (loop.run m).iterations ≤ max m.size 1 ∧
      m.IsInside (loop.run m).result := by
  obtain ⟨hSettles, hLe, hInside⟩ := leastFixpoint_settles (loop.isExpanding_step m) loop.kind
    hStart (loop.step_of_empty hm)
  exact ⟨⟨rfl, hSettles⟩, hLe, hInside⟩

theorem isInside_someUntil (allowed : BitSet) {goal : BitSet} (hGoal : m.IsInside goal) :
    m.IsInside (m.someUntil allowed goal).result := by
  have hStart : m.IsInside (Loop.someUntil allowed goal).start := hGoal
  rw [← Loop.run_someUntil]
  exact (Loop.comesTo_run hm hStart).2.2

theorem isInside_allEventually {goal : BitSet} (hGoal : m.IsInside goal) :
    m.IsInside (m.allEventually goal).result := by
  have hStart : m.IsInside (Loop.allEventually goal).start := hGoal
  rw [← Loop.run_allEventually]
  exact (Loop.comesTo_run hm hStart).2.2

theorem isInside_complement (X : BitSet) : m.IsInside (m.complement X) where
  lt_size i hi := by
    rw [complement, BitSet.contains_diff, Bool.and_eq_true] at hi
    rw [← List.mem_range, ← hm.allPositions]
    exact BitSet.mem_toList.mpr hi.1
  isCounted := BitSet.isCounted_ofWords _

-- ---------------------------------------------------------------------------
-- Positions of the model
-- ---------------------------------------------------------------------------

/-- A node whose operands were evaluated to positions of the model starts its loops
from such positions. -/
theorem isInside_start {node : Node BitSet} (h : m.HasInside node) :
    ∀ loop ∈ m.loops node, m.IsInside loop.start := by
  cases node with
  | temporal q p φ =>
    have hφ : m.IsInside φ := List.forall_mem_singleton.mp h
    have hNot := isInside_complement hm φ
    cases p with
    | next => cases q <;> exact List.forall_mem_nil _
    | eventually => cases q <;> exact List.forall_mem_singleton.mpr hφ
    | always => cases q <;> exact List.forall_mem_singleton.mpr hNot
  | untl q φ ψ =>
    have hψ : m.IsInside ψ := List.forall_mem_singleton.mp (List.forall_mem_cons.mp h).2
    have hNeither := (isInside_complement hm φ).inter (m.complement ψ)
    have hNotNot := isInside_complement hm (m.complement ψ)
    cases q with
    | some => exact List.forall_mem_singleton.mpr hψ
    | all => exact List.forall_mem_cons.mpr ⟨hNeither, List.forall_mem_singleton.mpr hNotNot⟩
  | _ => exact List.forall_mem_nil _

theorem isInside_evaluateConnective (op : Connective) {φ ψ : BitSet} (hφ : m.IsInside φ)
    (hψ : m.IsInside ψ) : m.IsInside (m.evaluateConnective op φ ψ) := by
  cases op with
  | and => exact hφ.inter ψ
  | or => exact hφ.union hψ
  | implies => exact (isInside_complement hm φ).union hψ

theorem isInside_evaluateTemporal (q : Quantifier) (p : PathOperator) {φ : BitSet}
    (hφ : m.IsInside φ) : m.IsInside (m.evaluateTemporal q p φ).satisfying := by
  cases p with
  | next =>
    cases q with
    | some => exact m.isInside_pre .some φ
    | all => exact isInside_complement hm _
  | eventually =>
    cases q with
    | some =>
      simp only [evaluateTemporal]
      exact isInside_someUntil hm m.allPositions hφ
    | all =>
      simp only [evaluateTemporal]
      exact isInside_allEventually hm hφ
  | always => cases q <;> exact isInside_complement hm _

/-- Such a node is evaluated to positions of the model too. -/
theorem isInside_evaluateNode {node : Node BitSet} (h : m.HasInside node) :
    m.IsInside (m.evaluateNode node).satisfying := by
  cases node with
  | atom name => exact m.isInside_positionsWhere _
  | not φ => exact isInside_complement hm φ
  | connective op φ ψ =>
    obtain ⟨hφ, hRest⟩ := List.forall_mem_cons.mp h
    exact isInside_evaluateConnective hm op hφ (List.forall_mem_singleton.mp hRest)
  | temporal q p φ => exact isInside_evaluateTemporal hm q p (List.forall_mem_singleton.mp h)
  | untl q φ ψ =>
    have hψ := List.forall_mem_singleton.mp (List.forall_mem_cons.mp h).2
    cases q with
    | some =>
      simp only [evaluateNode, evaluateUntl]
      exact isInside_someUntil hm φ hψ
    | all => exact isInside_complement hm _

end Built

-- ---------------------------------------------------------------------------
-- The evaluations of a check
-- ---------------------------------------------------------------------------

/-- The evaluation of the node at a place. -/
def Checked.evaluationAt (c : Checked) (place : Nat) : Evaluation :=
  c.evaluations.getD place default

/-- The positions that were found for the node at a place. -/
def Checked.valueAt (c : Checked) (place : Nat) : BitSet :=
  (c.evaluationAt place).satisfying

/-- The evaluations that a check keeps are those of the nodes that come up. -/
theorem toList_collapse_recordNode (t : Tree) (evaluations : Array Evaluation) :
    (t.collapse m.recordNode evaluations).2.toList =
      evaluations.toList ++ (t.calls m.recordNode evaluations).map m.evaluateNode := by
  induction t generalizing evaluations with
  | atom name => simp [Tree.collapse, Tree.calls, recordNode]
  | not t ih => simp [Tree.collapse, Tree.calls, recordNode, ih]
  | connective op t u iht ihu => simp [Tree.collapse, Tree.calls, recordNode, iht, ihu]
  | temporal q p t ih => simp [Tree.collapse, Tree.calls, recordNode, ih]
  | untl q t u iht ihu => simp [Tree.collapse, Tree.calls, recordNode, iht, ihu]

section Checked

variable {f : Formula} (hf : f.IsObtained)
include hf

/-- Every node is evaluated once, at the values that were found for its operands. -/
theorem evaluations_check :
    (m.check f).evaluations.toList =
      f.nodes.toList.map fun node => m.evaluateNode (node.map (m.check f).valueAt) := by
  obtain ⟨t, rfl⟩ := hf.exists_layout
  have hCalls : (m.check t.layout).evaluations.toList =
      (t.calls m.recordNode #[]).map m.evaluateNode := by
    rw [check, Tree.collapse_layout]
    exact toList_collapse_recordNode t #[]
  have hFound : Tree.HasValues (fun node => (m.evaluateNode node).satisfying)
      (m.check t.layout).valueAt 0 (t.calls m.recordNode #[]) := by
    intro i node hNode
    rw [Nat.zero_add, Checked.valueAt, Checked.evaluationAt, Array.getD_eq_getD_getElem?,
      ← Array.getElem?_toList, hCalls, List.getElem?_map, hNode]
    rfl
  have hEval (node : Node BitSet) (evaluations : Array Evaluation) :
      (m.recordNode node evaluations).1 = (m.evaluateNode node).satisfying := rfl
  obtain ⟨hNodes, -⟩ := Tree.calls_eq_map hEval t #[] hFound
  rw [hCalls, hNodes, ← Tree.nodes_layout, List.map_map]
  rfl

theorem evaluationAt_check {place : Nat} (hPlace : place < f.size) :
    (m.check f).evaluationAt place = m.evaluateNode ((f.node place).map (m.check f).valueAt) := by
  have hNode : f.nodes[place]? = some (f.node place) := by
    rw [Formula.node, Array.getElem?_eq_getElem hPlace]
    simp [Array.getElem?_eq_getElem hPlace]
  rw [Checked.evaluationAt, Array.getD_eq_getD_getElem?, ← Array.getElem?_toList,
    evaluations_check hf, List.getElem?_map, Array.getElem?_toList, hNode]
  rfl

theorem exists_evaluationAt {x : Fixpoint} (hx : x ∈ (m.check f).fixpoints) :
    ∃ place < f.size, x ∈ ((m.check f).evaluationAt place).fixpoints := by
  obtain ⟨e, he, hx⟩ := List.mem_flatMap.mp hx
  obtain ⟨place, hFound⟩ := List.mem_iff_getElem?.mp he
  have hPlace := (List.getElem?_eq_some_iff.mp hFound).1
  rw [evaluations_check hf, List.length_map, Array.length_toList] at hPlace
  refine ⟨place, hPlace, ?_⟩
  rwa [Checked.evaluationAt, Array.getD_eq_getD_getElem?, ← Array.getElem?_toList, hFound]

theorem length_fixpoints_check :
    (m.check f).fixpoints.length =
      f.nodes.countP Node.takesOne + 2 * f.nodes.countP Node.takesTwo := by
  rw [Checked.fixpoints, evaluations_check hf, ← Array.countP_toList, ← Array.countP_toList]
  induction f.nodes.toList with
  | nil => rfl
  | cons node rest ih =>
    rw [List.map_cons, List.flatMap_cons, List.length_append, ih, fixpoints_evaluateNode,
      List.length_map, length_loops, Node.takesOne_map, Node.takesTwo_map, List.countP_cons,
      List.countP_cons]
    cases node.takesOne <;> cases node.takesTwo <;> simp <;> omega

variable {accepted : List Builder.Call} (hm : m.IsBuiltFrom accepted)
include hm

/-- Positions of the model are found for every node, since they are found for its
operands, which stand in earlier places. -/
theorem hasInside_check {place : Nat} (hPlace : place < f.size) :
    m.HasInside ((f.node place).map (m.check f).valueAt) := by
  obtain ⟨t, hLayout⟩ := hf.exists_layout
  have hShape := (Formula.laysOut_iff.mpr hLayout).isTreeShaped
  induction place using Nat.strongRecOn with
  | ind place ih =>
    intro X hX
    rw [Node.operands_map] at hX
    obtain ⟨operand, hOperand, rfl⟩ := List.mem_map.mp hX
    have hBefore := hShape.operands_lt place hPlace operand hOperand
    have hThere := Nat.lt_trans hBefore hPlace
    rw [Checked.valueAt, evaluationAt_check hf hThere]
    exact isInside_evaluateNode hm (ih operand hBefore hThere)

theorem comesTo_check {place : Nat} (hPlace : place < f.size) :
    List.Forall₂ (Loop.ComesTo m) (m.loops ((f.node place).map (m.check f).valueAt))
      ((m.check f).evaluationAt place).fixpoints := by
  rw [evaluationAt_check hf hPlace, fixpoints_evaluateNode, List.forall₂_map_right_iff,
    List.forall₂_same]
  intro loop hLoop
  exact (Loop.comesTo_run hm (isInside_start hm (hasInside_check hf hm hPlace) loop hLoop)).1

theorem iterations_le_check {x : Fixpoint} (hx : x ∈ (m.check f).fixpoints) :
    1 ≤ x.iterations ∧ x.iterations ≤ max m.size 1 := by
  obtain ⟨place, hPlace, hx⟩ := exists_evaluationAt hf hx
  rw [evaluationAt_check hf hPlace, fixpoints_evaluateNode] at hx
  obtain ⟨loop, hLoop, rfl⟩ := List.mem_map.mp hx
  have hStart := isInside_start hm (hasInside_check hf hm hPlace) loop hLoop
  obtain ⟨hEnd, hLe, -⟩ := Loop.comesTo_run hm hStart
  exact ⟨hEnd.settles.pos, hLe⟩

end Checked

-- ---------------------------------------------------------------------------
-- Counters
-- ---------------------------------------------------------------------------

theorem foldl_add_bounds {counts : List Nat} {bound : Nat}
    (h : ∀ n ∈ counts, 1 ≤ n ∧ n ≤ bound) (start : Nat) :
    start + counts.length ≤ counts.foldl (· + ·) start ∧
      counts.foldl (· + ·) start ≤ start + counts.length * bound := by
  induction counts generalizing start with
  | nil => simp
  | cons n rest ih =>
    obtain ⟨⟨hPos, hLe⟩, hRest⟩ := List.forall_mem_cons.mp h
    have hSum := ih hRest (start + n)
    rw [List.foldl_cons, List.length_cons, Nat.succ_mul]
    omega

theorem foldl_max_le {counts : List Nat} {bound : Nat} (h : ∀ n ∈ counts, n ≤ bound) {start : Nat}
    (hStart : start ≤ bound) : counts.foldl max start ≤ bound := by
  induction counts generalizing start with
  | nil => exact hStart
  | cons n rest ih =>
    obtain ⟨hLe, hRest⟩ := List.forall_mem_cons.mp h
    exact ih hRest (Nat.max_le.mpr ⟨hStart, hLe⟩)

/-- **The cost of a check.** Every node is evaluated once. `EF`, `AF`, `EG`, `AG` and
`E(_ U _)` take one fixpoint each, `A(_ U _)` takes two. At every place, the fixpoints
are the ends of the loops that the node takes from the values of its operands:
these loops stop, and the last step, which changes nothing, is counted. Each takes
at least one step and at most as many as there are states (one, if there are
none); so the numbers of steps keep to these bounds too. -/
theorem cost_check (hm : m.IsBuilt) {f : Formula} (hf : f.IsObtained) :
    let checked := m.check f
    checked.cost.nodes = f.size ∧
      checked.cost.fixpoints =
        f.nodes.countP Node.takesOne + 2 * f.nodes.countP Node.takesTwo ∧
      (∀ place < f.size,
        List.Forall₂ (Loop.ComesTo m) (m.loops ((f.node place).map checked.valueAt))
          (checked.evaluationAt place).fixpoints) ∧
      (∀ x ∈ checked.fixpoints, 1 ≤ x.iterations ∧ x.iterations ≤ max m.size 1) ∧
      checked.cost.maxIterations ≤ max m.size 1 ∧
      checked.cost.fixpoints ≤ checked.cost.iterations ∧
      checked.cost.iterations ≤ checked.cost.fixpoints * max m.size 1 := by
  intro checked
  obtain ⟨accepted, hBuilt⟩ := hm.exists_isBuiltFrom
  have hBounds (x : Fixpoint) (hx : x ∈ checked.fixpoints) := iterations_le_check hf hBuilt hx
  have hCounts : ∀ n ∈ checked.fixpoints.map Fixpoint.iterations, 1 ≤ n ∧ n ≤ max m.size 1 := by
    intro n hn
    obtain ⟨x, hx, rfl⟩ := List.mem_map.mp hn
    exact hBounds x hx
  have hSum := foldl_add_bounds hCounts 0
  rw [Nat.zero_add, Nat.zero_add] at hSum
  refine ⟨?_, ?_, fun place hPlace => comesTo_check hf hBuilt hPlace, hBounds, ?_, hSum.1, hSum.2⟩
  · show checked.evaluations.size = _
    rw [← Array.length_toList, evaluations_check hf, List.length_map]
    rfl
  · show (checked.fixpoints.map Fixpoint.iterations).length = _
    rw [List.length_map, length_fixpoints_check hf]
  · exact foldl_max_le (fun n hn => (hCounts n hn).2) (Nat.zero_le _)

/-- In `0 → 1 → 2`, where `2` carries `p`, the fixpoint of `EF p` takes as many steps
as there are states; `A(q U p)` takes two fixpoints more. -/
theorem cost_check_chain :
    let calls : List Builder.Call :=
      [.state ⟨0⟩, .state ⟨1⟩, .state ⟨2⟩, .transition ⟨⟨0⟩, ⟨0⟩, ⟨1⟩⟩,
        .transition ⟨⟨1⟩, ⟨1⟩, ⟨2⟩⟩, .label ⟨2⟩ "p"]
    let m := (Builder.attemptAll {} calls).1.build
    let f := ((Formula.atom "p").temporal .some .eventually).connect .and
      ((Formula.atom "q").untl .all (.atom "p"))
    let reach := ((m.check f).evaluationAt 1).fixpoints
    m.IsBuilt ∧ f.IsObtained ∧ m.size = 3 ∧
      (m.check f).cost = { nodes := 6, fixpoints := 3, iterations := 7, maxIterations := 3 } ∧
      List.Forall₂ (Loop.ComesTo m) [.someUntil m.allPositions ((m.check f).valueAt 0)] reach := by
  intro calls m f reach
  have hBuilt : m.IsBuilt := ⟨calls, rfl⟩
  have hObtained : f.IsObtained :=
    .connect .and (.temporal .some .eventually (.atom "p")) (.untl .all (.atom "q") (.atom "p"))
  have hSorted : (Builder.attemptAll {} calls).1.sortedStates =
      [{ id := ⟨0⟩, outgoing := [0] }, { id := ⟨1⟩, outgoing := [1] },
        { id := ⟨2⟩, labels := ["p"] }] :=
    List.mergeSort_of_pairwise (by decide +kernel)
  refine ⟨hBuilt, hObtained, ?_, ?_, ?_⟩
  · simp only [m, Builder.build, hSorted]
    decide +kernel
  · simp only [m, Builder.build, hSorted]
    decide +kernel
  · have hNode : f.node 1 = .temporal .some .eventually 0 := by decide +kernel
    have hReach := (cost_check hBuilt hObtained).2.2.1 1 (by decide +kernel)
    rwa [hNode] at hReach

end Model

end BranchingTime
