import BranchingTime.Proofs.Ascending
import BranchingTime.StateSet
import Mathlib.Data.List.Perm.Subperm

/-!
# BranchingTime — sets of states as sets

Everything about a set of states is said through `contains`. Membership, insertion
and removal search the list of members by halving, which finds them because the
list ascends. The operations act as on sets of identifiers, and two sets with the
same members are equal.
-/

namespace BranchingTime.StateSet

/-- Every member of `s` is a member of `t`. -/
instance : LE StateSet := ⟨fun s t => ∀ id, s.contains id = true → t.contains id = true⟩

/-- Searching finds the members. -/
theorem contains_iff_mem {s : StateSet} {id : StateId} : s.contains id = true ↔ id ∈ s.members :=
  (Ascending.isOf_search s.ascending).isFound_iff

-- ---------------------------------------------------------------------------
-- One set
-- ---------------------------------------------------------------------------

theorem toList_ofList {ids : List StateId} (h : ids.Pairwise (· < ·)) : (ofList ids).toList = ids :=
  Ascending.ofList_of_pairwise h

theorem contains_ofList {ids : List StateId} {id : StateId} :
    (ofList ids).contains id = true ↔ id ∈ ids := by
  rw [contains_iff_mem, ofList, Ascending.mem_ofList]

theorem contains_insertMany {s : StateSet} {ids : List StateId} {id : StateId} :
    (s.insertMany ids).contains id = true ↔ s.contains id = true ∨ id ∈ ids := by
  rw [insertMany, contains_ofList, List.mem_append, contains_iff_mem]

/-- Insertion adds the state, and answers whether it was missing. -/
theorem contains_insert {s : StateSet} {id j : StateId} :
    (s.insert id).1.contains j = true ↔ j = id ∨ s.contains j = true := by
  rw [contains_iff_mem, contains_iff_mem]
  exact (Ascending.isOf_search s.ascending).mem_put

/-- Removal takes away the state, and answers whether it was there. -/
theorem contains_erase {s : StateSet} {id j : StateId} :
    (s.erase id).1.contains j = true ↔ j ≠ id ∧ s.contains j = true := by
  rw [contains_iff_mem, contains_iff_mem]
  exact (Ascending.isOf_search s.ascending).mem_cut s.ascending

-- ---------------------------------------------------------------------------
-- Two sets
-- ---------------------------------------------------------------------------

variable {s t : StateSet} {id : StateId}

theorem subperm_of_le (hLe : s ≤ t) : s.members.Subperm t.members := by
  have hDistinct : s.members.Nodup := s.ascending.imp fun h => Std.ne_of_lt h
  refine List.subperm_of_subset hDistinct fun id hId => ?_
  exact contains_iff_mem.mp (hLe id (contains_iff_mem.mpr hId))

theorem eq_of_contains_iff (h : ∀ id, s.contains id = true ↔ t.contains id = true) : s = t := by
  refine StateSet.ext (Ascending.eq_of_mem_iff s.ascending t.ascending fun id => ?_)
  rw [← contains_iff_mem, h, contains_iff_mem]

theorem contains_union :
    (s.union t).contains id = true ↔ s.contains id = true ∨ t.contains id = true := by
  rw [contains_iff_mem, contains_iff_mem, contains_iff_mem, union,
    Ascending.mem_merge _ s.ascending t.ascending]
  grind

theorem contains_inter :
    (s.inter t).contains id = true ↔ s.contains id = true ∧ t.contains id = true := by
  rw [contains_iff_mem, contains_iff_mem, contains_iff_mem, inter,
    Ascending.mem_merge _ s.ascending t.ascending]
  grind

theorem contains_diff :
    (s.diff t).contains id = true ↔ s.contains id = true ∧ ¬ t.contains id = true := by
  rw [contains_iff_mem, contains_iff_mem, contains_iff_mem, diff,
    Ascending.mem_merge _ s.ascending t.ascending]
  grind

/-- Comparing the numbers of members first loses nothing. -/
theorem isSubset_iff : s.isSubset t = true ↔ s ≤ t := by
  have hDiff : (s.diff t).isEmpty = true ↔ s ≤ t := by
    rw [isEmpty, List.isEmpty_iff, List.eq_nil_iff_forall_not_mem]
    refine forall_congr' fun id => ?_
    rw [← contains_iff_mem, contains_diff, not_and_not_right]
  rw [isSubset, Bool.and_eq_true, decide_eq_true_eq, hDiff, and_iff_right_iff_imp]
  exact fun hLe => (subperm_of_le hLe).length_le

/-- A subset with as many members is the whole set. -/
theorem eq_of_le_of_size_eq (hLe : s ≤ t) (hSize : s.size = t.size) : s = t := by
  have hPerm : s.members.Perm t.members :=
    (subperm_of_le hLe).perm_of_length_le (Nat.le_of_eq hSize.symm)
  refine eq_of_contains_iff fun id => ?_
  rw [contains_iff_mem, contains_iff_mem, hPerm.mem_iff]

end BranchingTime.StateSet
