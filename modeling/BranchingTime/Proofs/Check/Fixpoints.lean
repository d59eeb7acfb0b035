import BranchingTime.Check.Fixpoint
import BranchingTime.Proofs.BitSet
import BranchingTime.Proofs.Check.Reachability
import BranchingTime.Proofs.Model.Finished

/-!
# BranchingTime — sets of positions and what they stand for

The checker computes with sets of positions in a built model. `Represents` ties
such a set to a property of states: its members are the positions of the states
with that property. The operations on sets represent the logical operations,
and the two least fixpoints represent `Reaches` and `IsForced`.

## Results

* `Represents.pre_some`, `Represents.pre_all` — the two kinds of predecessors.
* `represents_leastFixpoint` — what an iteration that only adds positions ends
  with: each step that changes something fills a missing position, so there are
  fewer steps than the iteration may take.
* `Represents.someUntilStep`, `represents_allEventuallyStep` — one step of each
  fixpoint.
* `represents_someUntil`, `represents_allEventually` — the two fixpoints.
-/

namespace BranchingTime.Model

variable {m : Model}

/-- The members are the positions of the states with a property. -/
def Represents (m : Model) (positions : BitSet) (property : StateId → Prop) : Prop :=
  ∀ i, positions.contains i = true ↔ ∃ id, m.position? id = some i ∧ property id

section Positions

variable {accepted : List Builder.Call} (hm : m.IsBuiltFrom accepted)
include hm

-- ---------------------------------------------------------------------------
-- Steps in a built model
-- ---------------------------------------------------------------------------

namespace IsBuiltFrom

theorem exists_position {t : StateId} {s : StateId} (h : m.Step s t) :
    ∃ i, m.position? t = some i := by
  obtain ⟨transition, hMem, -, rfl⟩ := h
  exact Option.isSome_iff_exists.mp (hm.endpoints transition hMem).2

/-- The successors of a state are the positions that a step leads to. -/
theorem mem_successors {s : State} (hs : s ∈ m.states) {i : Nat} :
    i ∈ s.successors ↔ ∃ t, m.Step s.id t ∧ m.position? t = some i := by
  have hMap : i ∈ s.successors ↔ some i ∈ s.successors.map some := by simp
  rw [hMap, hm.successors s hs, hm.transitionsOf, List.mem_map]
  constructor
  · rintro ⟨transition, hMem, hPosition⟩
    rw [List.mem_filter, Array.mem_toList_iff, beq_iff_eq] at hMem
    exact ⟨transition.target, ⟨transition, hMem.1, hMem.2, rfl⟩, hPosition⟩
  · rintro ⟨_, ⟨transition, hMem, hSource, rfl⟩, hPosition⟩
    refine ⟨transition, ?_, hPosition⟩
    rw [List.mem_filter, Array.mem_toList_iff, beq_iff_eq]
    exact ⟨hMem, hSource⟩

theorem isDeadlock_iff {s : State} (hs : s ∈ m.states) :
    s.isDeadlock = true ↔ ∀ t, ¬ m.Step s.id t := by
  rw [hm.isDeadlock s hs, Array.all_eq_true']
  constructor
  · rintro h _ ⟨transition, hMem, hSource, rfl⟩
    exact bne_iff_ne.mp (h transition hMem) hSource
  · intro h transition hMem
    exact bne_iff_ne.mpr fun hSource => h transition.target ⟨transition, hMem, hSource, rfl⟩

end IsBuiltFrom

-- ---------------------------------------------------------------------------
-- Sets of positions
-- ---------------------------------------------------------------------------

section Represents

variable {X Y : BitSet} {P Q : StateId → Prop}

omit hm in
theorem Represents.exists_position (h : m.Represents X P) {i : Nat}
    (hi : X.contains i = true) : ∃ id, m.position? id = some i := by
  obtain ⟨id, hId, -⟩ := (h i).mp hi
  exact ⟨id, hId⟩

theorem Represents.contains_iff (h : m.Represents X P) {id : StateId} {i : Nat}
    (hi : m.position? id = some i) : X.contains i = true ↔ P id := by
  rw [h i]
  constructor
  · rintro ⟨id', hi', hP⟩
    rw [hm.id_unique hi hi']
    exact hP
  · intro hP
    exact ⟨id, hi, hP⟩

omit hm in
theorem represents_of (hInside : ∀ i, X.contains i = true → ∃ id, m.position? id = some i)
    (hP : ∀ id i, m.position? id = some i → (X.contains i = true ↔ P id)) :
    m.Represents X P := by
  intro i
  constructor
  · intro hi
    obtain ⟨id, hId⟩ := hInside i hi
    exact ⟨id, hId, (hP id i hId).mp hi⟩
  · rintro ⟨id, hId, h⟩
    exact (hP id i hId).mpr h

/-- Only the states of the model count. -/
theorem Represents.congr (h : m.Represents X P)
    (hPQ : ∀ id i, m.position? id = some i → (P id ↔ Q id)) : m.Represents X Q :=
  represents_of (fun _ => h.exists_position) fun id i hi =>
    (h.contains_iff hm hi).trans (hPQ id i hi)

theorem represents_allPositions : m.Represents m.allPositions fun _ => True := by
  have hContains (i : Nat) : m.allPositions.contains i = true ↔ i < m.size := by
    rw [← BitSet.mem_toList, hm.allPositions, List.mem_range]
  refine represents_of ?_ ?_
  · intro i hi
    have hSize : i < m.states.size := (hContains i).mp hi
    exact ⟨m.states[i].id, hm.position?_eq_some_iff.mpr ⟨_, Array.getElem?_eq_getElem hSize, rfl⟩⟩
  · intro id i hi
    exact iff_of_true ((hContains i).mpr (hm.position_lt hi)) trivial

theorem represents_positionsWhere {condition : State → Bool}
    (h : ∀ s ∈ m.states, condition s = true ↔ P s.id) :
    m.Represents (m.positionsWhere condition) P := by
  have hContains (i : Nat) : (m.positionsWhere condition).contains i = true ↔
      ∃ s, m.states[i]? = some s ∧ condition s = true := by
    rw [positionsWhere, BitSet.contains_insertMany, BitSet.contains_withCapacity, Bool.or_false,
      decide_eq_true_eq, List.mem_filter, List.mem_range, Option.any_eq_true]
    refine and_iff_right_of_imp ?_
    rintro ⟨s, hs, -⟩
    exact (Array.getElem?_eq_some_iff.mp hs).1
  refine represents_of ?_ ?_
  · intro i hi
    obtain ⟨s, hs, -⟩ := (hContains i).mp hi
    exact ⟨s.id, hm.position?_eq_some_iff.mpr ⟨s, hs, rfl⟩⟩
  · intro id i hi
    obtain ⟨s, hs, rfl⟩ := hm.position?_eq_some_iff.mp hi
    rw [hContains i, hs, ← h s (Array.mem_of_getElem? hs)]
    simp

theorem Represents.complement (h : m.Represents X P) :
    m.Represents (m.complement X) fun id => ¬ P id := by
  have hAll := represents_allPositions hm
  refine represents_of ?_ ?_
  · intro i hi
    rw [Model.complement, BitSet.contains_diff, Bool.and_eq_true] at hi
    exact hAll.exists_position hi.1
  · intro id i hi
    rw [Model.complement, BitSet.contains_diff, Bool.and_eq_true, hAll.contains_iff hm hi,
      ← h.contains_iff hm hi]
    simp

theorem Represents.union (hX : m.Represents X P) (hY : m.Represents Y Q) :
    m.Represents (X.union Y) fun id => P id ∨ Q id := by
  refine represents_of ?_ ?_
  · intro i hi
    rw [BitSet.contains_union, Bool.or_eq_true] at hi
    exact hi.elim hX.exists_position hY.exists_position
  · intro id i hi
    rw [BitSet.contains_union, Bool.or_eq_true, hX.contains_iff hm hi, hY.contains_iff hm hi]

theorem Represents.inter (hX : m.Represents X P) (hY : m.Represents Y Q) :
    m.Represents (X.inter Y) fun id => P id ∧ Q id := by
  refine represents_of ?_ ?_
  · intro i hi
    rw [BitSet.contains_inter, Bool.and_eq_true] at hi
    exact hX.exists_position hi.1
  · intro id i hi
    rw [BitSet.contains_inter, Bool.and_eq_true, hX.contains_iff hm hi, hY.contains_iff hm hi]

/-- The predecessors by some step. -/
theorem Represents.pre_some (h : m.Represents X P) :
    m.Represents (m.pre .some X) fun id => ∃ t, m.Step id t ∧ P t := by
  refine represents_positionsWhere hm ?_
  intro s hs
  rw [List.any_eq_true]
  constructor
  · rintro ⟨i, hMem, hi⟩
    obtain ⟨t, hStep, hPosition⟩ := (hm.mem_successors hs).mp hMem
    exact ⟨t, hStep, (h.contains_iff hm hPosition).mp hi⟩
  · rintro ⟨t, hStep, ht⟩
    obtain ⟨i, hi⟩ := hm.exists_position hStep
    exact ⟨i, (hm.mem_successors hs).mpr ⟨t, hStep, hi⟩, (h.contains_iff hm hi).mpr ht⟩

/-- The predecessors by every step, of which there is at least one. -/
theorem Represents.pre_all (h : m.Represents X P) :
    m.Represents (m.pre .all X) fun id => (∃ t, m.Step id t) ∧ ∀ t, m.Step id t → P t := by
  refine represents_positionsWhere hm ?_
  intro s hs
  have hSteps : (∃ t, m.Step s.id t) ↔ (!s.isDeadlock) = true := by
    rw [Bool.not_eq_true', ← Bool.not_eq_true, hm.isDeadlock_iff hs]
    simp
  have hAll : (∀ t, m.Step s.id t → P t) ↔ s.successors.all X.contains = true := by
    rw [List.all_eq_true]
    constructor
    · intro hAll i hMem
      obtain ⟨t, hStep, hPosition⟩ := (hm.mem_successors hs).mp hMem
      exact (h.contains_iff hm hPosition).mpr (hAll t hStep)
    · intro hAll t hStep
      obtain ⟨i, hi⟩ := hm.exists_position hStep
      exact (h.contains_iff hm hi).mp (hAll i ((hm.mem_successors hs).mpr ⟨t, hStep, hi⟩))
  rw [hSteps, hAll, Bool.and_eq_true]

end Represents

-- ---------------------------------------------------------------------------
-- Iteration
-- ---------------------------------------------------------------------------

/-- The number of positions that are missing from a set. -/
def missing (m : Model) (X : BitSet) : Nat :=
  (List.range m.size).countP fun i => !X.contains i

omit hm in
theorem missing_le (X : BitSet) : m.missing X ≤ m.size := by
  have hLength := List.countP_le_length (p := fun i => !X.contains i) (l := List.range m.size)
  rwa [List.length_range] at hLength

omit hm in
/-- A larger set misses fewer positions. -/
theorem missing_lt {X Y : BitSet} (hMore : ∀ i, X.contains i = true → Y.contains i = true) {i : Nat}
    (hi : i < m.size) (hNew : Y.contains i = true) (hOld : X.contains i = false) :
    m.missing Y < m.missing X := by
  have hFilter : (List.range m.size).filter (fun i => !Y.contains i) =
      ((List.range m.size).filter fun i => !X.contains i).filter fun i => !Y.contains i := by
    rw [List.filter_filter]
    apply List.filter_congr
    intro j _
    have hj := hMore j
    revert hj
    cases X.contains j <;> simp
  rw [missing, missing, List.countP_eq_length_filter, List.countP_eq_length_filter, hFilter,
    List.length_filter_lt_length_iff_exists]
  exact ⟨i, by simp [hi, hOld], by simp [hNew]⟩

section Iteration

/-- One more step adds no state of the model to a property. -/
def IsClosed (m : Model) (next : (StateId → Prop) → StateId → Prop) (P : StateId → Prop) : Prop :=
  ∀ id i, m.position? id = some i → next P id → P id

variable {step : BitSet → BitSet} {next : (StateId → Prop) → StateId → Prop}
variable (hStep : ∀ X P, m.Represents X P → m.Represents (step X) (next P))
variable (hGrow : ∀ P id, P id → next P id)
include hStep hGrow

theorem represents_iterate_of_isClosed {P : StateId → Prop} (hClosed : m.IsClosed next P)
    (fuel : Nat) {X : BitSet} (hX : m.Represents X P) :
    m.Represents (iterate step fuel X).1 P := by
  induction fuel generalizing X with
  | zero => exact hX
  | succ fuel ih =>
    rw [iterate]
    split
    · exact hX
    · have hNext : m.Represents (step X) P :=
        (hStep X P hX).congr hm fun id i hi => ⟨hClosed id i hi, hGrow P id⟩
      exact ih hNext

variable {goal target : StateId → Prop}
variable (hSound : ∀ P, (∀ id, P id → target id) → ∀ id, next P id → target id)
include hSound

/-- An iteration that may take more steps than there are missing positions ends
between the goal and the target, where one more step adds nothing. -/
theorem represents_iterate {fuel : Nat} {X : BitSet} {P : StateId → Prop} (hX : m.Represents X P)
    (hGoal : ∀ id, goal id → P id) (hTarget : ∀ id, P id → target id) (hFuel : m.missing X < fuel) :
    ∃ Q, m.Represents (iterate step fuel X).1 Q ∧ (∀ id, goal id → Q id) ∧
      (∀ id, Q id → target id) ∧ m.IsClosed next Q := by
  induction fuel generalizing X P with
  | zero => exact absurd hFuel (Nat.not_lt_zero _)
  | succ fuel ih =>
    by_cases hClosed : m.IsClosed next P
    · exact ⟨P, represents_iterate_of_isClosed hm hStep hGrow hClosed _ hX, hGoal, hTarget, hClosed⟩
    · -- a state is added, so a missing position is filled
      simp only [IsClosed, Classical.not_forall] at hClosed
      obtain ⟨id, i, hi, hAdded, hNot⟩ := hClosed
      have hNext := hStep X P hX
      have hNew : (step X).contains i = true := (hNext.contains_iff hm hi).mpr hAdded
      have hOld : X.contains i = false := by
        rw [← Bool.not_eq_true, hX.contains_iff hm hi]
        exact hNot
      have hMore : ∀ j, X.contains j = true → (step X).contains j = true := by
        intro j hj
        obtain ⟨id', hId', hP⟩ := (hX j).mp hj
        exact (hNext j).mpr ⟨id', hId', hGrow P id' hP⟩
      have hLess : m.missing (step X) < m.missing X :=
        missing_lt hMore (hm.position_lt hi) hNew hOld
      rw [iterate]
      split
      · rename_i hSame
        rw [BitSet.contains_of_beq hSame, hOld] at hNew
        cases hNew
      · exact ih hNext (fun id h => hGrow P id (hGoal id h)) (hSound P hTarget) (by omega)

/-- The least fixpoint represents a property that each step stays within, if no
smaller property holds of the goal and is closed. -/
theorem represents_leastFixpoint (kind : FixpointKind) {start : BitSet}
    (hStart : m.Represents start goal) (hGoal : ∀ id, goal id → target id)
    (hLeast : ∀ P, (∀ id, goal id → P id) → m.IsClosed next P →
      ∀ id i, m.position? id = some i → target id → P id) :
    m.Represents (m.leastFixpoint kind step start).result target := by
  obtain ⟨Q, hQ, hFrom, hTo, hClosed⟩ := represents_iterate hm hStep hGrow hSound hStart
    (fun _ h => h) hGoal (Nat.lt_succ_of_le (m.missing_le start))
  exact hQ.congr hm fun id i hi => ⟨hTo id, hLeast Q hFrom hClosed id i hi⟩

end Iteration

-- ---------------------------------------------------------------------------
-- The two fixpoints
-- ---------------------------------------------------------------------------

section Fixpoints

/-- What one step of `someUntil` adds to a property. -/
def NextReaches (m : Model) (allowed P : StateId → Prop) (id : StateId) : Prop :=
  ((∃ t, m.Step id t ∧ P t) ∧ allowed id) ∨ P id

/-- What one step of `allEventually` adds to a property. -/
def NextForced (m : Model) (P : StateId → Prop) (id : StateId) : Prop :=
  ((∃ t, m.Step id t) ∧ ∀ t, m.Step id t → P t) ∨ P id

variable {A G : BitSet} {allowed goal : StateId → Prop}

theorem Represents.someUntilStep (hA : m.Represents A allowed) (X : BitSet) (P : StateId → Prop)
    (hX : m.Represents X P) : m.Represents (m.someUntilStep A X) (m.NextReaches allowed P) :=
  ((hX.pre_some hm).inter hm hA).union hm hX

theorem represents_allEventuallyStep (X : BitSet) (P : StateId → Prop) (hX : m.Represents X P) :
    m.Represents (m.allEventuallyStep X) (m.NextForced P) :=
  (hX.pre_all hm).union hm hX

theorem represents_someUntil (hA : m.Represents A allowed) (hG : m.Represents G goal) :
    m.Represents (m.someUntil A G).result (m.Reaches allowed goal) := by
  have hStep := hA.someUntilStep hm
  have hSound : ∀ P, (∀ id, P id → m.Reaches allowed goal id) →
      ∀ id, m.NextReaches allowed P id → m.Reaches allowed goal id := by
    rintro P hP id (⟨⟨t, ht, hReach⟩, hAllowed⟩ | hReach)
    · exact .step hAllowed ht (hP t hReach)
    · exact hP id hReach
  refine represents_leastFixpoint hm hStep (fun _ _ => .inr) hSound _ hG (fun _ => .here) ?_
  intro P hGoal hClosed id i hi hReach
  induction hReach generalizing i with
  | here h => exact hGoal _ h
  | step hAllowed ht _ ih =>
    obtain ⟨j, hj⟩ := hm.exists_position ht
    exact hClosed _ i hi (.inl ⟨⟨_, ht, ih j hj⟩, hAllowed⟩)

theorem represents_allEventually (hG : m.Represents G goal) :
    m.Represents (m.allEventually G).result (m.IsForced goal) := by
  have hStep := represents_allEventuallyStep hm
  have hSound : ∀ P, (∀ id, P id → m.IsForced goal id) →
      ∀ id, m.NextForced P id → m.IsForced goal id := by
    rintro P hP id (⟨⟨t, ht⟩, hAll⟩ | hForced)
    · exact .step ht fun u hu => hP u (hAll u hu)
    · exact hP id hForced
  refine represents_leastFixpoint hm hStep (fun _ _ => .inr) hSound _ hG (fun _ => .here) ?_
  intro P hGoal hClosed id i hi hForced
  induction hForced generalizing i with
  | here h => exact hGoal _ h
  | step ht _ ih =>
    refine hClosed _ i hi (.inl ⟨⟨_, ht⟩, fun u hu => ?_⟩)
    obtain ⟨j, hj⟩ := hm.exists_position hu
    exact ih u hu j hj

end Fixpoints

end Positions

end BranchingTime.Model
