import BranchingTime.Proofs.Programs
import BranchingTime.Proofs.StateSet

/-!
# BranchingTime — programs on sets of states

A set of states is a sorted list, and each operation trusts that the others left
it sorted: a search by halving misses members of a list that does not ascend, and
a merge then keeps some of them twice. Sets of states carry the proof that they
ascend, so no program meets any other list, and programs cannot tell their sets
from finite sets of identifiers.

## Results

* `refines_finiteSets` — the operations act as on finite sets.
* `run_acts_as_on_sets` — whatever a program does, its sets of states are finite
  sets in all that can be asked of them.
-/

namespace BranchingTime.StateSet

-- ---------------------------------------------------------------------------
-- The operations
-- ---------------------------------------------------------------------------

/-- The ways to make a set of states. -/
inductive Creation where
  | empty
  | collect (ids : List StateId)
  | numbers (numbers : List UInt32)

/-- The changes of one set. -/
inductive Change where
  /-- Adds a state; the answer is whether that changed the set. -/
  | insert (id : StateId)
  /-- Removes a state; the answer is whether that changed the set. -/
  | erase (id : StateId)
  | extend (ids : List StateId)

/-- The changes of one set by another. -/
inductive Combination where
  | union
  | inter
  | diff
  /-- What the other set has and this one does not. -/
  | complement

/-- A program on sets of states. -/
abbrev Program := List (Instruction Creation Change Combination)

/-- The operations on sets of states. -/
def operations : Operations Creation Change Combination StateSet where
  make
    | .empty => empty
    | .collect ids => ofList ids
    | .numbers numbers => ofNumbers numbers
  change
    | .insert id, s =>
      let (t, answer) := s.insert id
      (t, some answer)
    | .erase id, s =>
      let (t, answer) := s.erase id
      (t, some answer)
    | .extend ids, s => (s.insertMany ids, none)
  combine
    | .union => union
    | .inter => inter
    | .diff => diff
    | .complement => complement

/-- The same operations on finite sets. -/
def finiteSets : Operations Creation Change Combination (Finset StateId) where
  make
    | .empty => ∅
    | .collect ids => ids.toFinset
    | .numbers numbers => (numbers.map Ident.mk).toFinset
  change
    | .insert id, A => (Insert.insert id A, some (decide (Insert.insert id A ≠ A)))
    | .erase id, A => (A.erase id, some (decide (A.erase id ≠ A)))
    | .extend ids, A => (A ∪ ids.toFinset, none)
  combine
    | .union => fun A B => A ∪ B
    | .inter => fun A B => A ∩ B
    | .diff => fun A B => A \ B
    | .complement => fun A B => B \ A

-- ---------------------------------------------------------------------------
-- Sets of states and finite sets
-- ---------------------------------------------------------------------------

/-- The members are those of `A`. -/
def Represents (s : StateSet) (A : Finset StateId) : Prop :=
  ∀ id, s.contains id = true ↔ id ∈ A

namespace Represents

variable {s t : StateSet} {A B : Finset StateId}

theorem empty : StateSet.empty.Represents ∅ := by
  intro id
  rw [contains_iff_mem]
  exact iff_of_false List.not_mem_nil (Finset.notMem_empty id)

theorem ofList (ids : List StateId) : (StateSet.ofList ids).Represents ids.toFinset := by
  intro id
  rw [contains_ofList, List.mem_toFinset]

/-- Adding members forgets how the list was sorted and sorts it anew. -/
theorem insertMany (h : s.Represents A) (ids : List StateId) :
    (s.insertMany ids).Represents (A ∪ ids.toFinset) := by
  intro id
  rw [contains_insertMany, h id, Finset.mem_union, List.mem_toFinset]

theorem insert (h : s.Represents A) (id : StateId) :
    (s.insert id).1.Represents (Insert.insert id A) ∧
      (s.insert id).2 = decide (Insert.insert id A ≠ A) := by
  constructor
  · intro j
    rw [contains_insert, h j, Finset.mem_insert]
  · show (!s.contains id) = _
    rw [Bool.eq_iff_iff, decide_eq_true_eq, ne_eq, Finset.insert_eq_self, ← h id,
      Bool.not_eq_true', Bool.not_eq_true]

theorem erase (h : s.Represents A) (id : StateId) :
    (s.erase id).1.Represents (A.erase id) ∧ (s.erase id).2 = decide (A.erase id ≠ A) := by
  constructor
  · intro j
    rw [contains_erase, h j, Finset.mem_erase]
  · show s.contains id = _
    rw [Bool.eq_iff_iff, decide_eq_true_eq, ne_eq, Finset.erase_eq_self, not_not, h id]

theorem union (hs : s.Represents A) (ht : t.Represents B) : (s.union t).Represents (A ∪ B) := by
  intro id
  rw [contains_union, hs id, ht id, Finset.mem_union]

theorem inter (hs : s.Represents A) (ht : t.Represents B) : (s.inter t).Represents (A ∩ B) := by
  intro id
  rw [contains_inter, hs id, ht id, Finset.mem_inter]

theorem diff (hs : s.Represents A) (ht : t.Represents B) : (s.diff t).Represents (A \ B) := by
  intro id
  rw [contains_diff, hs id, ht id, Finset.mem_sdiff]

theorem mem_toList_iff (h : s.Represents A) (id : StateId) : id ∈ s.toList ↔ id ∈ A := by
  rw [← h id, contains_iff_mem, toList]

theorem size_eq_card (h : s.Represents A) : s.size = A.card := by
  have hDistinct : s.toList.Nodup := s.ascending.imp fun hLt => Std.ne_of_lt hLt
  have hSame : s.toList.toFinset = A := by
    ext id
    rw [List.mem_toFinset, h.mem_toList_iff]
  rw [← hSame, List.toFinset_card_of_nodup hDistinct]
  rfl

theorem isEmpty_iff (h : s.Represents A) : s.isEmpty = true ↔ A = ∅ := by
  rw [← Finset.card_eq_zero, ← h.size_eq_card, isEmpty, List.isEmpty_iff, size,
    List.length_eq_zero_iff]

theorem beq_iff (hs : s.Represents A) (ht : t.Represents B) : (s == t) = true ↔ A = B := by
  rw [beq_iff_eq]
  constructor
  · rintro rfl
    ext id
    rw [← hs id, ht id]
  · rintro rfl
    refine eq_of_contains_iff fun id => ?_
    rw [hs id, ht id]

theorem isSubset_iff (hs : s.Represents A) (ht : t.Represents B) :
    s.isSubset t = true ↔ A ⊆ B := by
  rw [StateSet.isSubset_iff]
  refine forall_congr' fun id => ?_
  rw [hs id, ht id]

end Represents

-- ---------------------------------------------------------------------------
-- Programs
-- ---------------------------------------------------------------------------

/-- The operations on sets of states act as on finite sets. -/
theorem refines_finiteSets : Refines operations finiteSets Represents := by
  constructor
  case make =>
    rintro (_ | ids | numbers)
    · exact .empty
    · exact .ofList ids
    · exact .ofList (numbers.map Ident.mk)
  case change =>
    rintro (id | id | ids) s A h
    · obtain ⟨hSet, hAnswer⟩ := h.insert id
      exact ⟨hSet, congrArg some hAnswer⟩
    · obtain ⟨hSet, hAnswer⟩ := h.erase id
      exact ⟨hSet, congrArg some hAnswer⟩
    · exact ⟨h.insertMany ids, rfl⟩
  case combine =>
    intro how s t A B hs ht
    cases how with
    | union => exact hs.union ht
    | inter => exact hs.inter ht
    | diff => exact hs.diff ht
    | complement => exact ht.diff hs

/-- **Sets of states are finite sets.** Run any program on sets of states, and the
same program on finite sets of identifiers. The answers are the same: an insertion
or a removal tells whether it changed the set. Afterwards, and so at every moment,
the members of each set of states ascend strictly and are those of the finite set
in its place, whether they are looked for one by one, searched for by halving,
listed or counted; and comparing two sets of states compares the finite sets. -/
theorem run_acts_as_on_sets (program : Program) :
    let states := operations.run (fun _ => empty) program
    let sets := finiteSets.run (fun _ => ∅) program
    states.2 = sets.2 ∧
    ∀ r,
      let s := states.1 r
      let A := sets.1 r
      s.members.Pairwise (· < ·) ∧
      (∀ id, s.contains id = true ↔ id ∈ A) ∧
      (∀ id, (Ascending.search id s.members).isFound = true ↔ id ∈ A) ∧
      (∀ id, id ∈ s.toList ↔ id ∈ A) ∧ s.toList.Pairwise (· < ·) ∧
      s.size = A.card ∧ (s.isEmpty = true ↔ A = ∅) ∧
      ∀ r',
        let t := states.1 r'
        let B := sets.1 r'
        ((s == t) = true ↔ A = B) ∧ (s.isSubset t = true ↔ A ⊆ B) := by
  intro states sets
  obtain ⟨hSets, hAnswers⟩ := refines_finiteSets.run (fun _ => Represents.empty) program
  refine ⟨hAnswers, ?_⟩
  intro r s A
  have h : s.Represents A := hSets r
  refine ⟨s.ascending, h, h, h.mem_toList_iff, s.ascending, h.size_eq_card, h.isEmpty_iff, ?_⟩
  intro r' t B
  exact ⟨h.beq_iff (hSets r'), h.isSubset_iff (hSets r')⟩

end BranchingTime.StateSet
