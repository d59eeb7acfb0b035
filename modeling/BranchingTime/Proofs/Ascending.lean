import BranchingTime.Ascending
import BranchingTime.Ident

/-!
# BranchingTime — ascending lists as sets

Putting an element into an ascending list adds it to the set of elements and
keeps the list ascending, and so does merging two lists for what the merge is
asked to keep. Ascending lists with the same elements are equal. In an ascending
list a search by halving finds what there is, and otherwise the place where the
list can be opened. Identifiers are ordered by their numbers, labels as texts;
both orders are linear.
-/

namespace BranchingTime

-- ---------------------------------------------------------------------------
-- The order of identifiers
-- ---------------------------------------------------------------------------

namespace Ident

variable {letter : Char}

instance : LE (Ident letter) := ⟨fun a b => a.number ≤ b.number⟩

theorem number_inj {a b : Ident letter} : a.number = b.number ↔ a = b := by
  cases a
  cases b
  simp

instance : Std.IsLinearOrder (Ident letter) := by
  apply Std.IsLinearOrder.of_le
  · exact ⟨fun a b hab hba => number_inj.mp (UInt32.le_antisymm hab hba)⟩
  · exact ⟨fun hab hbc => UInt32.le_trans hab hbc⟩
  · exact ⟨fun a b => UInt32.le_total a.number b.number⟩

instance : Std.LawfulOrderLT (Ident letter) where
  lt_iff a b := Std.LawfulOrderLT.lt_iff a.number b.number

end Ident

-- ---------------------------------------------------------------------------
-- Insertion
-- ---------------------------------------------------------------------------

namespace Ascending

section Insert

variable {α : Type} [LT α] [DecidableLT α] [LE α] [Std.IsLinearOrder α] [Std.LawfulOrderLT α]

/-- Insertion adds the element and nothing else. -/
@[simp] theorem mem_insert {x y : α} {ys : List α} : y ∈ insert x ys ↔ y = x ∨ y ∈ ys := by
  induction ys with
  | nil => simp [insert]
  | cons z zs ih =>
    rw [insert]
    split
    · simp
    · split
      · rw [List.mem_cons, ih, List.mem_cons]
        grind
      · -- neither is less than the other, so `x` is there already
        grind

/-- Insertion keeps a list ascending. -/
theorem pairwise_insert {x : α} {ys : List α} (hAscends : ys.Pairwise (· < ·)) :
    (insert x ys).Pairwise (· < ·) := by
  induction ys with
  | nil => simp [insert]
  | cons z zs ih =>
    obtain ⟨hHead, hTail⟩ := List.pairwise_cons.mp hAscends
    rw [insert]
    split
    · rename_i hxz
      refine List.pairwise_cons.mpr ⟨?_, hAscends⟩
      intro y hy
      rcases List.mem_cons.mp hy with rfl | hy
      · exact hxz
      · exact Std.lt_trans hxz (hHead y hy)
    · split
      · rename_i hzx
        refine List.pairwise_cons.mpr ⟨?_, ih hTail⟩
        intro y hy
        rcases mem_insert.mp hy with rfl | hy
        · exact hzx
        · exact hHead y hy
      · exact hAscends

@[simp] theorem mem_ofList {x : α} {xs : List α} : x ∈ ofList xs ↔ x ∈ xs := by
  induction xs with
  | nil => exact Iff.rfl
  | cons y ys ih =>
    show x ∈ insert y (ofList ys) ↔ _
    rw [mem_insert, ih, List.mem_cons]

theorem pairwise_ofList (xs : List α) : (ofList xs).Pairwise (· < ·) := by
  induction xs with
  | nil => exact List.Pairwise.nil
  | cons y ys ih => exact pairwise_insert ih

omit [LE α] [Std.IsLinearOrder α] [Std.LawfulOrderLT α] in
/-- An ascending list stays as it is. -/
theorem ofList_of_pairwise {xs : List α} (hAscends : xs.Pairwise (· < ·)) : ofList xs = xs := by
  induction xs with
  | nil => rfl
  | cons x xs ih =>
    obtain ⟨hHead, hTail⟩ := List.pairwise_cons.mp hAscends
    show insert x (ofList xs) = _
    rw [ih hTail]
    cases xs with
    | nil => rfl
    | cons y ys => exact if_pos (hHead y List.mem_cons_self)

end Insert

-- ---------------------------------------------------------------------------
-- Merging
-- ---------------------------------------------------------------------------

section Merge

variable {α : Type} [LT α] [LE α] [Std.IsLinearOrder α] [Std.LawfulOrderLT α]

/-- What is less than the first element of an ascending list is not in it. -/
theorem notMem_of_lt {x y : α} {ys : List α} (hAscends : (y :: ys).Pairwise (· < ·))
    (hxy : x < y) : x ∉ y :: ys := by
  have hHead := (List.pairwise_cons.mp hAscends).1
  intro hMem
  rcases List.mem_cons.mp hMem with rfl | hMem
  · exact Std.lt_irrefl hxy
  · exact Std.lt_irrefl (Std.lt_trans hxy (hHead x hMem))

variable [DecidableLT α] {xs ys : List α}

/-- A merge of two ascending lists holds what only the left list has, what both
have and what only the right list has, as far as they are kept. -/
theorem mem_merge (keep : Keep) (hxs : xs.Pairwise (· < ·)) (hys : ys.Pairwise (· < ·)) {z : α} :
    z ∈ merge keep xs ys ↔
      (keep.left = true ∧ z ∈ xs ∧ z ∉ ys) ∨ (keep.both = true ∧ z ∈ xs ∧ z ∈ ys) ∨
        (keep.right = true ∧ z ∉ xs ∧ z ∈ ys) := by
  fun_induction merge keep xs ys with
  | case1 ys hRight => simp [hRight]
  | case2 ys hRight => simp [hRight]
  | case3 x xs hLeft => simp [hLeft]
  | case4 x xs hLeft => simp [hLeft]
  | case5 x xs y ys hxy rest hLeft ih =>
    have hNot := notMem_of_lt hys hxy
    rw [List.mem_cons, ih hxs.of_cons hys]
    by_cases hz : z = x <;> simp_all
  | case6 x xs y ys hxy rest hLeft ih =>
    have hNot := notMem_of_lt hys hxy
    rw [ih hxs.of_cons hys]
    by_cases hz : z = x <;> simp_all
  | case7 x xs y ys hxy hyx rest hRight ih =>
    have hNot := notMem_of_lt hxs hyx
    rw [List.mem_cons, ih hxs hys.of_cons]
    by_cases hz : z = y <;> simp_all
  | case8 x xs y ys hxy hyx rest hRight ih =>
    have hNot := notMem_of_lt hxs hyx
    rw [ih hxs hys.of_cons]
    by_cases hz : z = y <;> simp_all
  | case9 x xs y ys hxy hyx rest hBoth ih =>
    have hEq : x = y := Std.le_antisymm (Std.not_lt.mp hyx) (Std.not_lt.mp hxy)
    rw [List.mem_cons, ih hxs.of_cons hys.of_cons]
    by_cases hz : z = x <;> simp_all
  | case10 x xs y ys hxy hyx rest hBoth ih =>
    have hEq : x = y := Std.le_antisymm (Std.not_lt.mp hyx) (Std.not_lt.mp hxy)
    have hNotLeft : x ∉ xs := fun h => Std.lt_irrefl ((List.pairwise_cons.mp hxs).1 x h)
    have hNotRight : y ∉ ys := fun h => Std.lt_irrefl ((List.pairwise_cons.mp hys).1 y h)
    rw [ih hxs.of_cons hys.of_cons]
    by_cases hz : z = x <;> simp_all

/-- What a merge holds comes from one of the lists. -/
theorem mem_or_mem_of_mem_merge {keep : Keep} (hxs : xs.Pairwise (· < ·))
    (hys : ys.Pairwise (· < ·)) {z : α} (hz : z ∈ merge keep xs ys) : z ∈ xs ∨ z ∈ ys := by
  rcases (mem_merge keep hxs hys).mp hz with ⟨-, h, -⟩ | ⟨-, h, -⟩ | ⟨-, -, h⟩
  · exact .inl h
  · exact .inl h
  · exact .inr h

theorem pairwise_merge (keep : Keep) (hxs : xs.Pairwise (· < ·)) (hys : ys.Pairwise (· < ·)) :
    (merge keep xs ys).Pairwise (· < ·) := by
  fun_induction merge keep xs ys with
  | case1 ys hRight => exact hys
  | case2 ys hRight => exact List.Pairwise.nil
  | case3 x xs hLeft => exact hxs
  | case4 x xs hLeft => exact List.Pairwise.nil
  | case5 x xs y ys hxy rest hLeft ih =>
    refine List.pairwise_cons.mpr ⟨?_, ih hxs.of_cons hys⟩
    intro z hz
    rcases mem_or_mem_of_mem_merge hxs.of_cons hys hz with hz | hz
    · exact (List.pairwise_cons.mp hxs).1 z hz
    · rcases List.mem_cons.mp hz with rfl | hz
      · exact hxy
      · exact Std.lt_trans hxy ((List.pairwise_cons.mp hys).1 z hz)
  | case6 x xs y ys hxy rest hLeft ih => exact ih hxs.of_cons hys
  | case7 x xs y ys hxy hyx rest hRight ih =>
    refine List.pairwise_cons.mpr ⟨?_, ih hxs hys.of_cons⟩
    intro z hz
    rcases mem_or_mem_of_mem_merge hxs hys.of_cons hz with hz | hz
    · rcases List.mem_cons.mp hz with rfl | hz
      · exact hyx
      · exact Std.lt_trans hyx ((List.pairwise_cons.mp hxs).1 z hz)
    · exact (List.pairwise_cons.mp hys).1 z hz
  | case8 x xs y ys hxy hyx rest hRight ih => exact ih hxs hys.of_cons
  | case9 x xs y ys hxy hyx rest hBoth ih =>
    have hEq : x = y := Std.le_antisymm (Std.not_lt.mp hyx) (Std.not_lt.mp hxy)
    refine List.pairwise_cons.mpr ⟨?_, ih hxs.of_cons hys.of_cons⟩
    intro z hz
    rcases mem_or_mem_of_mem_merge hxs.of_cons hys.of_cons hz with hz | hz
    · exact (List.pairwise_cons.mp hxs).1 z hz
    · rw [hEq]
      exact (List.pairwise_cons.mp hys).1 z hz
  | case10 x xs y ys hxy hyx rest hBoth ih => exact ih hxs.of_cons hys.of_cons

omit [DecidableLT α] in
/-- Ascending lists with the same elements are equal. -/
theorem eq_of_mem_iff (hxs : xs.Pairwise (· < ·)) (hys : ys.Pairwise (· < ·))
    (hMem : ∀ z, z ∈ xs ↔ z ∈ ys) : xs = ys := by
  have hNodup {zs : List α} (hzs : zs.Pairwise (· < ·)) : zs.Nodup :=
    hzs.imp fun h => Std.ne_of_lt h
  have hPerm : xs.Perm ys := (List.perm_ext_iff_of_nodup (hNodup hxs) (hNodup hys)).mpr hMem
  exact hPerm.eq_of_pairwise (fun x y _ _ hxy hyx => absurd (Std.lt_trans hxy hyx) Std.lt_irrefl)
    hxs hys

end Merge

-- ---------------------------------------------------------------------------
-- Searching
-- ---------------------------------------------------------------------------

section Search

variable {α : Type} [LT α] {x : α} {xs lower upper : List α} {place : Place}

/-- The place is that of `x` in the list: it stands there, or all that is less
stands before and all that is greater behind. -/
inductive Place.IsOf (x : α) : List α → Place → Prop where
  | found (lower upper : List α) : IsOf x (lower ++ x :: upper) (.found lower.length)
  | missing {lower upper : List α} : (∀ y ∈ lower, y < x) → (∀ y ∈ upper, x < y) →
      IsOf x (lower ++ upper) (.missing lower.length)

namespace Place.IsOf

/-- Greater elements behind the list do not move the place. -/
theorem append (h : IsOf x xs place) (hUpper : ∀ y ∈ upper, x < y) :
    IsOf x (xs ++ upper) place := by
  cases h with
  | found before behind =>
    rw [List.append_assoc, List.cons_append]
    exact .found before (behind ++ upper)
  | @missing before behind hBefore hBehind =>
    rw [List.append_assoc]
    refine .missing hBefore fun y hy => ?_
    rcases List.mem_append.mp hy with hy | hy
    · exact hBehind y hy
    · exact hUpper y hy

/-- Smaller elements in front of the list move the place by their number. -/
theorem shift (h : IsOf x xs place) (hLower : ∀ y ∈ lower, y < x) :
    IsOf x (lower ++ xs) (place.shift lower.length) := by
  cases h with
  | found before behind =>
    rw [← List.append_assoc, Place.shift, Nat.add_comm, ← List.length_append]
    exact .found (lower ++ before) behind
  | @missing before behind hBefore hBehind =>
    rw [← List.append_assoc, Place.shift, Nat.add_comm, ← List.length_append]
    refine .missing (fun y hy => ?_) hBehind
    rcases List.mem_append.mp hy with hy | hy
    · exact hLower y hy
    · exact hBefore y hy

end Place.IsOf

/-- An ascending list around one of its elements: all before it are less, all
behind it are greater. -/
theorem split_at_getElem (hAscends : xs.Pairwise (· < ·)) {i : Nat} (hi : i < xs.length) :
    xs = xs.take i ++ xs[i] :: xs.drop (i + 1) ∧
      (∀ y ∈ xs.take i, y < xs[i]) ∧ ∀ y ∈ xs.drop (i + 1), xs[i] < y := by
  have hSplit : xs = xs.take i ++ xs[i] :: xs.drop (i + 1) := by
    rw [← List.drop_eq_getElem_cons hi, List.take_append_drop]
  have hOrder := hAscends
  rw [hSplit, List.pairwise_append, List.pairwise_cons] at hOrder
  obtain ⟨-, ⟨hBehind, -⟩, hAcross⟩ := hOrder
  exact ⟨hSplit, fun y hy => hAcross y hy _ List.mem_cons_self, hBehind⟩

omit [LT α] in
theorem insertIdx_append (lower upper : List α) (x : α) :
    (lower ++ upper).insertIdx lower.length x = lower ++ x :: upper := by
  induction lower with
  | nil => rfl
  | cons y ys ih => simp [ih]

/-- An element that is missing is put where the list can be opened. -/
theorem Place.IsOf.pairwise_put (h : place.IsOf x xs) (hAscends : xs.Pairwise (· < ·)) :
    (place.put x xs).Pairwise (· < ·) := by
  cases h with
  | found lower upper => exact hAscends
  | @missing lower upper hLower hUpper =>
    obtain ⟨hBefore, hBehind, hAcross⟩ := List.pairwise_append.mp hAscends
    rw [put, insertIdx_append]
    refine List.pairwise_append.mpr ⟨hBefore, List.pairwise_cons.mpr ⟨hUpper, hBehind⟩, ?_⟩
    intro y hy z hz
    rcases List.mem_cons.mp hz with rfl | hz
    · exact hLower y hy
    · exact hAcross y hy z hz

theorem Place.IsOf.mem_put (h : place.IsOf x xs) {y : α} :
    y ∈ place.put x xs ↔ y = x ∨ y ∈ xs := by
  cases h with
  | found lower upper =>
    refine (or_iff_right_of_imp ?_).symm
    rintro rfl
    exact List.mem_append_right lower List.mem_cons_self
  | missing hLower hUpper =>
    rw [put, insertIdx_append, List.mem_append, List.mem_append, List.mem_cons, or_left_comm]

theorem Place.pairwise_cut (place : Place) (hAscends : xs.Pairwise (· < ·)) :
    (place.cut xs).Pairwise (· < ·) := by
  cases place with
  | found i => exact hAscends.sublist (List.eraseIdx_sublist xs i)
  | missing i => exact hAscends

variable [Std.Irrefl (α := α) (· < ·)]

/-- An element is found iff it is there. -/
theorem Place.IsOf.isFound_iff (h : place.IsOf x xs) : place.isFound = true ↔ x ∈ xs := by
  cases h with
  | found lower upper => simp [isFound]
  | missing hLower hUpper =>
    refine iff_of_false Bool.false_ne_true fun hMem => ?_
    rcases List.mem_append.mp hMem with hMem | hMem
    · exact Std.lt_irrefl (hLower x hMem)
    · exact Std.lt_irrefl (hUpper x hMem)

/-- An element that is found stands there only. -/
theorem Place.IsOf.mem_cut (h : place.IsOf x xs) (hAscends : xs.Pairwise (· < ·)) {y : α} :
    y ∈ place.cut xs ↔ y ≠ x ∧ y ∈ xs := by
  have hFound := h.isFound_iff
  cases h with
  | found lower upper =>
    have hErase : (lower ++ x :: upper).eraseIdx lower.length = lower ++ upper := by
      simp [List.eraseIdx_append_of_length_le]
    obtain ⟨-, hBehind, hAcross⟩ := List.pairwise_append.mp hAscends
    have hNotBefore : x ∉ lower := fun hMem =>
      Std.lt_irrefl (hAcross x hMem x List.mem_cons_self)
    have hNotBehind : x ∉ upper := fun hMem =>
      Std.lt_irrefl ((List.pairwise_cons.mp hBehind).1 x hMem)
    rw [cut, hErase]
    by_cases hy : y = x
    · simp [hy, hNotBefore, hNotBehind]
    · simp [hy]
  | missing hLower hUpper =>
    refine (and_iff_right_of_imp ?_).symm
    rintro hy rfl
    exact Bool.false_ne_true (hFound.mpr hy)

end Search

section Halving

variable {α : Type} [LT α] [DecidableLT α] [LE α] [Std.IsLinearOrder α] [Std.LawfulOrderLT α]
variable {x : α} {xs : List α}

/-- In an ascending list, halving finds the place of the element. -/
theorem isOf_search (hAscends : xs.Pairwise (· < ·)) : (search x xs).IsOf x xs := by
  fun_induction search x xs with
  | case1 xs middle hMiddle hLess ih =>
    -- all from the middle on is greater
    obtain ⟨hSplit, -, hBehind⟩ := split_at_getElem hAscends hMiddle
    have hUpper : ∀ y ∈ xs[middle] :: xs.drop (middle + 1), x < y := by
      intro y hy
      rcases List.mem_cons.mp hy with rfl | hy
      · exact hLess
      · exact Std.lt_trans hLess (hBehind y hy)
    have hPlace := (ih hAscends.take).append hUpper
    rwa [← hSplit] at hPlace
  | case2 xs middle hMiddle _ hGreater ih =>
    -- all up to the middle is less
    obtain ⟨-, hBefore, -⟩ := split_at_getElem hAscends hMiddle
    have hLower : ∀ y ∈ xs.take (middle + 1), y < x := by
      intro y hy
      rw [← List.take_append_getElem hMiddle, List.mem_append, List.mem_singleton] at hy
      rcases hy with hy | rfl
      · exact Std.lt_trans (hBefore y hy) hGreater
      · exact hGreater
    have hShift := (ih hAscends.drop).shift hLower
    rwa [List.take_append_drop, List.length_take_of_le hMiddle] at hShift
  | case3 xs middle hMiddle hNotLess hNotGreater =>
    obtain ⟨hSplit, -, -⟩ := split_at_getElem hAscends hMiddle
    have hEq : xs[middle] = x :=
      Std.le_antisymm (Std.not_lt.mp hNotLess) (Std.not_lt.mp hNotGreater)
    rw [hEq] at hSplit
    have hFound := Place.IsOf.found (x := x) (xs.take middle) (xs.drop (middle + 1))
    rwa [← hSplit, List.length_take_of_le (Nat.le_of_lt hMiddle)] at hFound
  | case4 xs middle hMiddle =>
    have hNil : xs = [] := List.eq_nil_of_length_eq_zero (by omega)
    rw [hNil]
    show Place.IsOf x ([] ++ []) (.missing ([] : List α).length)
    exact .missing (by simp) (by simp)

end Halving

-- ---------------------------------------------------------------------------
-- Sorting
-- ---------------------------------------------------------------------------

/-- Sorting by numbers that are all different makes them ascend strictly. -/
theorem pairwise_mergeSort {α : Type} (key : α → UInt32) {xs : List α}
    (hDistinct : xs.Pairwise fun x y => key x ≠ key y) :
    (xs.mergeSort fun x y => key x ≤ key y).Pairwise fun x y => key x < key y := by
  have hSorted : (xs.mergeSort fun x y => key x ≤ key y).Pairwise fun x y =>
      decide (key x ≤ key y) = true := by
    apply List.pairwise_mergeSort
    · intro x y z hxy hyz
      rw [decide_eq_true_eq] at hxy hyz ⊢
      exact UInt32.le_trans hxy hyz
    · intro x y
      rw [Bool.or_eq_true, decide_eq_true_eq, decide_eq_true_eq]
      exact UInt32.le_total (key x) (key y)
  have hApart : (xs.mergeSort fun x y => key x ≤ key y).Pairwise fun x y => key x ≠ key y :=
    (List.mergeSort_perm ..).symm.pairwise hDistinct Ne.symm
  refine (hSorted.and hApart).imp ?_
  rintro x y ⟨hLe, hNe⟩
  exact UInt32.lt_of_le_of_ne (of_decide_eq_true hLe) hNe

end Ascending

end BranchingTime
