import BranchingTime.BitSet
import BranchingTime.Proofs.Ascending
import Mathlib.Data.List.DropRight
import Mathlib.Data.List.Perm.Subperm

/-!
# BranchingTime — bit sets as sets

Everything about a bit set is said through `contains`. An operation on sets is
first described word by word, zero words beyond the end included, and then
read off bit by bit; after that no proof looks at words again.

## Results

* `contains_insertMany`, `contains_union`, `contains_inter`, `contains_diff` —
  the operations act as on sets of numbers, whatever the lengths of the operands.
* `Walk.toList_eq_remaining` — a walk meets the bits of all words, each word's in
  ascending order.
* `mem_toList`, `pairwise_toList` — the list of members is complete and ascends.
* `isCounted_ofWords`, `IsCounted.insertMany` — the number that is kept with a set
  is that of its members.
* `contains_of_beq`, `beq_of_contains`, `isSubset_iff` — comparing sets, numbers of
  members first, compares their members.
-/

namespace BranchingTime.BitSet

-- ---------------------------------------------------------------------------
-- Bits of a word
-- ---------------------------------------------------------------------------

/-- A shift by less than the width of a word is the shift that is carried out. -/
theorem toNat_ofNat_mod {i : Nat} (hi : i < 64) : (UInt64.ofNat i).toNat % 64 = i := by
  rw [UInt64.toNat_ofNat_of_lt' (by rw [UInt64.size]; omega)]
  omega

/-- The bit test reads a bit of the number that the word stands for. -/
theorem testBit_eq (word : UInt64) {i : Nat} (hi : i < 64) :
    testBit word i = word.toNat.testBit i := by
  unfold testBit
  rw [Bool.eq_iff_iff, beq_iff_eq, ← UInt64.toNat_inj]
  rw [UInt64.toNat_and, UInt64.toNat_shiftRight, toNat_ofNat_mod hi, Nat.testBit, Nat.and_comm]
  simp [Nat.one_and_eq_mod_two]

theorem testBit_or (v w : UInt64) {i : Nat} (hi : i < 64) :
    testBit (v ||| w) i = (testBit v i || testBit w i) := by
  rw [testBit_eq _ hi, testBit_eq _ hi, testBit_eq _ hi, UInt64.toNat_or, Nat.testBit_or]

theorem testBit_and (v w : UInt64) {i : Nat} (hi : i < 64) :
    testBit (v &&& w) i = (testBit v i && testBit w i) := by
  rw [testBit_eq _ hi, testBit_eq _ hi, testBit_eq _ hi, UInt64.toNat_and, Nat.testBit_and]

theorem testBit_not (w : UInt64) {i : Nat} (hi : i < 64) :
    testBit (~~~w) i = !testBit w i := by
  have hSub : UInt64.size - 1 - w.toNat = 2 ^ 64 - (w.toNat + 1) := by
    rw [UInt64.size]
    omega
  rw [testBit_eq _ hi, testBit_eq _ hi, UInt64.toNat_not, hSub,
    Nat.testBit_two_pow_sub_succ w.toNat_lt]
  simp [hi]

theorem testBit_zero (i : Nat) : testBit 0 i = false := by
  simp [testBit]

theorem testBit_singleBit {i j : Nat} (hi : i < 64) (hj : j < 64) :
    testBit (singleBit i) j = decide (i = j) := by
  unfold singleBit
  rw [testBit_eq _ hj, UInt64.toNat_shiftLeft, toNat_ofNat_mod hi, Nat.testBit_mod_two_pow,
    UInt64.toNat_one, Nat.one_shiftLeft, Nat.testBit_two_pow]
  simp [hj]

/-- A word is known by its bits. -/
theorem word_eq_of_testBit {v w : UInt64} (h : ∀ i < 64, testBit v i = testBit w i) : v = w := by
  rw [← UInt64.toNat_inj]
  apply Nat.eq_of_testBit_eq
  intro i
  by_cases hi : i < 64
  · rw [← testBit_eq v hi, ← testBit_eq w hi, h i hi]
  · have hLarge : 2 ^ 64 ≤ 2 ^ i := Nat.pow_le_pow_right (by decide) (Nat.le_of_not_lt hi)
    rw [Nat.testBit_lt_two_pow (Nat.lt_of_lt_of_le v.toNat_lt hLarge),
      Nat.testBit_lt_two_pow (Nat.lt_of_lt_of_le w.toNat_lt hLarge)]

theorem exists_testBit_of_ne_zero {word : UInt64} (h : word ≠ 0) :
    ∃ i < 64, testBit word i = true := by
  apply Classical.byContradiction
  intro hNone
  refine h (word_eq_of_testBit fun i hi => ?_)
  rw [testBit_zero, ← Bool.not_eq_true]
  exact fun hBit => hNone ⟨i, hi, hBit⟩

-- ---------------------------------------------------------------------------
-- The lowest bit of a word
-- ---------------------------------------------------------------------------

/-- A number and its predecessor have all bits of the number in common but the
lowest one. -/
theorem testBit_and_pred {n : Nat} (hn : n ≠ 0) (i : Nat) :
    (n &&& (n - 1)).testBit i = true ↔ n.testBit i = true ∧ ∃ j < i, n.testBit j = true := by
  induction i generalizing n with
  | zero =>
    rw [Nat.testBit_and, Nat.testBit_zero, Nat.testBit_zero]
    simp
    omega
  | succ i ih =>
    have hLower : (∃ j < i + 1, n.testBit j = true) ↔
        n % 2 = 1 ∨ ∃ j < i, (n / 2).testBit j = true := by
      rw [Nat.exists_lt_succ_left]
      simp only [Nat.testBit_zero, Nat.testBit_succ, decide_eq_true_eq]
    rw [hLower, Nat.testBit_succ, Nat.testBit_succ, Nat.and_div_two]
    rcases Nat.mod_two_eq_zero_or_one n with hEven | hOdd
    · -- the predecessor borrows from the upper bits
      have hHalf : (n - 1) / 2 = n / 2 - 1 := by omega
      rw [hHalf, ih (by omega)]
      simp [hEven]
    · have hHalf : (n - 1) / 2 = n / 2 := by omega
      rw [hHalf, Nat.and_self]
      simp [hOdd]

theorem testBit_clearLowest {word : UInt64} (h : word ≠ 0) {i : Nat} (hi : i < 64) :
    testBit (clearLowest word) i = true ↔
      testBit word i = true ∧ ∃ j < i, testBit word j = true := by
  have hPos : word.toNat ≠ 0 := fun hZero => h (UInt64.toNat_inj.mp hZero)
  have hPred : (word - 1).toNat = word.toNat - 1 :=
    UInt64.toNat_sub_of_le _ _ (UInt64.le_iff_toNat_le.mpr (Nat.pos_of_ne_zero hPos))
  rw [testBit_eq _ hi, clearLowest, UInt64.toNat_and, hPred, testBit_and_pred hPos,
    testBit_eq _ hi]
  refine and_congr_right fun _ => exists_congr fun j => and_congr_right fun hj => ?_
  rw [testBit_eq _ (Nat.lt_trans hj hi)]

theorem testBit_trailingZeros {word : UInt64} (h : word ≠ 0) :
    trailingZeros word < 64 ∧ testBit word (trailingZeros word) = true := by
  have hLt : (List.range 64).findIdx (testBit word) < (List.range 64).length := by
    obtain ⟨i, hi, hBit⟩ := exists_testBit_of_ne_zero h
    exact List.findIdx_lt_length_of_exists ⟨i, List.mem_range.mpr hi, hBit⟩
  have hBit := List.findIdx_getElem (w := hLt)
  rw [List.getElem_range] at hBit
  rw [List.length_range] at hLt
  exact ⟨hLt, hBit⟩

theorem testBit_of_lt_trailingZeros {word : UInt64} {i : Nat} (h : i < trailingZeros word) :
    testBit word i = false := by
  have hNot := List.not_of_lt_findIdx h
  rwa [List.getElem_range] at hNot

theorem mem_bitsOf {word : UInt64} {i : Nat} :
    i ∈ bitsOf word ↔ i < 64 ∧ testBit word i = true := by
  simp [bitsOf]

theorem pairwise_bitsOf (word : UInt64) : (bitsOf word).Pairwise (· < ·) :=
  List.pairwise_lt_range.filter _

theorem bitsOf_zero : bitsOf 0 = [] := by
  rw [List.eq_nil_iff_forall_not_mem]
  intro i hi
  rw [mem_bitsOf, testBit_zero] at hi
  exact Bool.false_ne_true hi.2

/-- Taking the lowest bit and clearing it goes through the bits in order. -/
theorem bitsOf_eq_cons {word : UInt64} (h : word ≠ 0) :
    bitsOf word = trailingZeros word :: bitsOf (clearLowest word) := by
  obtain ⟨hLt, hLowest⟩ := testBit_trailingZeros h
  have hCleared (i : Nat) : i ∈ bitsOf (clearLowest word) ↔
      i < 64 ∧ testBit word i = true ∧ trailingZeros word < i := by
    rw [mem_bitsOf]
    refine and_congr_right fun hi => ?_
    rw [testBit_clearLowest h hi]
    refine and_congr_right fun _ => ⟨?_, fun hAbove => ⟨_, hAbove, hLowest⟩⟩
    rintro ⟨j, hj, hBit⟩
    have hNot : ¬ j < trailingZeros word := fun hBelow => by
      rw [testBit_of_lt_trailingZeros hBelow] at hBit
      exact Bool.false_ne_true hBit
    omega
  refine Ascending.eq_of_mem_iff (pairwise_bitsOf word)
    (List.pairwise_cons.mpr ⟨fun i hi => ((hCleared i).mp hi).2.2, pairwise_bitsOf _⟩) fun i => ?_
  rw [List.mem_cons, hCleared, mem_bitsOf]
  constructor
  · rintro ⟨hi, hBit⟩
    rcases Nat.lt_trichotomy i (trailingZeros word) with hBelow | rfl | hAbove
    · rw [testBit_of_lt_trailingZeros hBelow] at hBit
      exact absurd hBit Bool.false_ne_true
    · exact .inl rfl
    · exact .inr ⟨hi, hBit, hAbove⟩
  · rintro (rfl | ⟨hi, hBit, -⟩)
    · exact ⟨hLt, hLowest⟩
    · exact ⟨hi, hBit⟩

-- ---------------------------------------------------------------------------
-- Words of a set
-- ---------------------------------------------------------------------------

theorem word_eq_getElem? (s : BitSet) (k : Nat) : s.word k = s.words[k]?.getD 0 :=
  Array.getD_eq_getD_getElem? ..

/-- A word beyond the end is zero. -/
theorem word_of_size_le {s : BitSet} {k : Nat} (hk : s.words.size ≤ k) : s.word k = 0 := by
  rw [word_eq_getElem?, Array.getElem?_eq_none hk]
  rfl

/-- Padding does not change any word. -/
theorem getElem?_padded (words : Array UInt64) (n k : Nat) :
    (padded words n)[k]?.getD 0 = words[k]?.getD 0 := by
  unfold padded
  rw [Array.getElem?_append]
  split
  · rfl
  · rename_i hk
    rw [Array.getElem?_eq_none (Nat.le_of_not_lt hk), Array.getElem?_replicate]
    split <;> rfl

theorem size_padded (words : Array UInt64) (n : Nat) :
    (padded words n).size = max words.size n := by
  unfold padded
  rw [Array.size_append, Array.size_replicate]
  omega

@[simp] theorem word_withCapacity (capacity k : Nat) : (withCapacity capacity).word k = 0 := by
  rw [word_eq_getElem?, withCapacity, Array.getElem?_replicate]
  split <;> rfl

theorem word_insert {s : BitSet} {i : Nat} (hNew : s.contains i = false) (k : Nat) :
    (s.insert i).1.word k =
      if k = i / 64 then s.word k ||| singleBit (i % 64) else s.word k := by
  have hSize := size_padded s.words (i / 64 + 1)
  rw [word_eq_getElem?, word_eq_getElem?, ← getElem?_padded s.words (i / 64 + 1)]
  simp only [insert, hNew, Bool.false_eq_true, if_false, Array.getElem?_modify]
  by_cases hk : k = i / 64
  · rw [if_pos hk.symm, if_pos hk, Array.getElem?_eq_getElem (by omega)]
    rfl
  · rw [if_neg (Ne.symm hk), if_neg hk]

@[simp] theorem word_union (s t : BitSet) (k : Nat) :
    (s.union t).word k = s.word k ||| t.word k := by
  have hSize := size_padded s.words t.words.size
  rw [word_eq_getElem?, word_eq_getElem? s, ← getElem?_padded s.words t.words.size, union, ofWords,
    Array.getElem?_mapIdx]
  by_cases hk : k < (padded s.words t.words.size).size
  · rw [Array.getElem?_eq_getElem hk]
    rfl
  · rw [Array.getElem?_eq_none (by omega), word_eq_getElem? t, Array.getElem?_eq_none (by omega)]
    rfl

@[simp] theorem word_inter (s t : BitSet) (k : Nat) :
    (s.inter t).word k = s.word k &&& t.word k := by
  rw [word_eq_getElem?, word_eq_getElem? s, inter, ofWords, Array.getElem?_mapIdx]
  cases s.words[k]? with
  | none => exact UInt64.zero_and.symm
  | some word => rfl

@[simp] theorem word_diff (s t : BitSet) (k : Nat) :
    (s.diff t).word k = s.word k &&& ~~~t.word k := by
  rw [word_eq_getElem?, word_eq_getElem? s, diff, ofWords, Array.getElem?_mapIdx]
  cases s.words[k]? with
  | none => exact UInt64.zero_and.symm
  | some word => rfl

-- ---------------------------------------------------------------------------
-- Members
-- ---------------------------------------------------------------------------

@[simp] theorem contains_withCapacity (capacity i : Nat) :
    (withCapacity capacity).contains i = false := by
  rw [contains, word_withCapacity, testBit_zero]

@[simp] theorem contains_insert (s : BitSet) (i j : Nat) :
    (s.insert i).1.contains j = (decide (i = j) || s.contains j) := by
  by_cases hMem : s.contains i = true
  · rw [insert, if_pos hMem]
    grind
  · have hj : j % 64 < 64 := Nat.mod_lt j (by omega)
    have hi : i % 64 < 64 := Nat.mod_lt i (by omega)
    rw [Bool.not_eq_true] at hMem
    rw [contains, word_insert hMem, contains]
    by_cases hk : j / 64 = i / 64
    · have hSame : i % 64 = j % 64 ↔ i = j := by omega
      rw [if_pos hk, testBit_or _ _ hj, testBit_singleBit hi hj, Bool.or_comm]
      simp only [hSame]
    · have hNe : i ≠ j := by
        intro hij
        exact hk (by rw [hij])
      rw [if_neg hk]
      simp [hNe]

@[simp] theorem contains_insertMany (s : BitSet) (members : List Nat) (j : Nat) :
    (s.insertMany members).contains j = (decide (j ∈ members) || s.contains j) := by
  unfold insertMany
  induction members generalizing s with
  | nil => simp
  | cons i rest ih =>
    rw [List.foldl_cons, ih, contains_insert]
    grind

@[simp] theorem contains_union (s t : BitSet) (i : Nat) :
    (s.union t).contains i = (s.contains i || t.contains i) := by
  have hi : i % 64 < 64 := Nat.mod_lt i (by omega)
  rw [contains, word_union, testBit_or _ _ hi, contains, contains]

@[simp] theorem contains_inter (s t : BitSet) (i : Nat) :
    (s.inter t).contains i = (s.contains i && t.contains i) := by
  have hi : i % 64 < 64 := Nat.mod_lt i (by omega)
  rw [contains, word_inter, testBit_and _ _ hi, contains, contains]

@[simp] theorem contains_diff (s t : BitSet) (i : Nat) :
    (s.diff t).contains i = (s.contains i && !t.contains i) := by
  have hi : i % 64 < 64 := Nat.mod_lt i (by omega)
  rw [contains, word_diff, testBit_and _ _ hi, testBit_not _ hi, contains, contains]

-- ---------------------------------------------------------------------------
-- The list of members
-- ---------------------------------------------------------------------------

namespace Walk

/-- The bits that a walk has not met: those left of the current word, and those
of all later words. -/
def remaining (w : Walk) : List Nat :=
  (bitsOf w.current).map (64 * w.index + ·) ++
    (List.range' (w.index + 1) (w.words.size - (w.index + 1))).flatMap fun k =>
      (bitsOf (w.words.getD k 0)).map (64 * k + ·)

/-- One step of a walk meets the first of them. -/
theorem remaining_eq_next (w : Walk) :
    w.remaining =
      match w.next with
      | none => []
      | some (i, v) => i :: v.1.remaining := by
  fun_induction next w with
  | case1 w hBits =>
    simp only [remaining, bitsOf_eq_cons hBits, List.map_cons, List.cons_append, pastLowest]
  | case2 w hBits hMore ih =>
    have hLater : w.words.size - (w.index + 1) = w.words.size - (w.index + 1 + 1) + 1 := by omega
    have hSame : w.remaining = w.nextWord.remaining := by
      rw [remaining, Classical.not_not.mp hBits, bitsOf_zero, hLater, List.range'_succ,
        List.flatMap_cons]
      rfl
    rw [hSame, ih]
    cases w.nextWord.next <;> rfl
  | case3 w hBits hMore =>
    have hNone : w.words.size - (w.index + 1) = 0 := by omega
    rw [remaining, Classical.not_not.mp hBits, bitsOf_zero, hNone]
    rfl

theorem toList_eq_remaining (w : Walk) : w.toList = w.remaining := by
  fun_induction toList w with
  | case1 w hNext => rw [remaining_eq_next, hNext]
  | case2 w i v hNext ih => rw [remaining_eq_next, hNext, ih]

end Walk

/-- The list of members goes through all words and their bits. -/
theorem toList_eq_flatMap (s : BitSet) :
    s.toList = (List.range s.words.size).flatMap fun k => (bitsOf (s.word k)).map (64 * k + ·) := by
  rw [toList, Walk.toList_eq_remaining, Walk.remaining, List.range_eq_range']
  simp only [walk, word]
  rcases Nat.eq_zero_or_pos s.words.size with hEmpty | hPos
  · have hNone : s.words.getD 0 0 = 0 := word_of_size_le (Nat.le_of_eq hEmpty)
    rw [hNone, bitsOf_zero, hEmpty]
    rfl
  · have hSize : s.words.size = s.words.size - 1 + 1 := by omega
    rw [hSize, List.range'_succ, List.flatMap_cons]
    rfl

/-- The list of members holds the members and nothing else. -/
@[simp] theorem mem_toList {s : BitSet} {i : Nat} : i ∈ s.toList ↔ s.contains i = true := by
  rw [toList_eq_flatMap]
  unfold contains
  simp only [List.mem_flatMap, List.mem_range, List.mem_map, mem_bitsOf]
  constructor
  · rintro ⟨k, -, j, ⟨hj, hBit⟩, rfl⟩
    have hDiv : (64 * k + j) / 64 = k := by omega
    have hMod : (64 * k + j) % 64 = j := by omega
    rw [hDiv, hMod]
    exact hBit
  · intro hBit
    refine ⟨i / 64, ?_, i % 64, ⟨Nat.mod_lt i (by omega), hBit⟩, by omega⟩
    -- a word beyond the end is zero and has no bits
    apply Nat.lt_of_not_le
    intro hOut
    rw [word_of_size_le hOut, testBit_zero] at hBit
    exact Bool.false_ne_true hBit

/-- The list of members ascends: it goes through the words in order, and through
the bits of a word in order. -/
theorem pairwise_toList (s : BitSet) : s.toList.Pairwise (· < ·) := by
  rw [toList_eq_flatMap, List.pairwise_flatMap]
  constructor
  · intro k hk
    exact (pairwise_bitsOf _).map _ fun i j hij => by omega
  · apply List.pairwise_lt_range.imp
    intro k l hkl i hi j hj
    simp only [List.mem_map, mem_bitsOf] at hi hj
    omega

-- ---------------------------------------------------------------------------
-- The number of members
-- ---------------------------------------------------------------------------

/-- The number that is kept with a set is that of its members. -/
def IsCounted (s : BitSet) : Prop :=
  s.size = s.toList.length

theorem isCounted_withCapacity (capacity : Nat) : (withCapacity capacity).IsCounted := by
  have hNone : (withCapacity capacity).toList = [] :=
    List.eq_nil_iff_forall_not_mem.mpr fun i => by simp
  rw [IsCounted, hNone]
  rfl

theorem isCounted_ofWords (words : Array UInt64) : (ofWords words).IsCounted := by
  have hWords : (List.range words.size).map (words.getD · 0) = words.toList := by
    apply List.ext_getElem
    · simp
    · intro k hk hk'
      simp at hk
      simp [hk]
  have hSum (ws : List UInt64) (n : Nat) :
      ws.foldl (fun n word => n + (bitsOf word).length) n =
        n + (ws.map fun word => (bitsOf word).length).sum := by
    induction ws generalizing n with
    | nil => rfl
    | cons word rest ih =>
      rw [List.foldl_cons, ih, List.map_cons, List.sum_cons, Nat.add_assoc]
  unfold IsCounted
  rw [toList_eq_flatMap]
  unfold word
  simp only [ofWords, List.length_flatMap, List.length_map]
  rw [← Array.foldl_toList, hSum, ← hWords, List.map_map, Nat.zero_add]
  rfl

theorem nodup_toList (s : BitSet) : s.toList.Nodup :=
  s.pairwise_toList.imp Nat.ne_of_lt

theorem IsCounted.insert {s : BitSet} (h : s.IsCounted) (i : Nat) : (s.insert i).1.IsCounted := by
  by_cases hMem : s.contains i = true
  · rw [BitSet.insert, if_pos hMem]
    exact h
  · have hNew : (i :: s.toList).Nodup :=
      List.nodup_cons.mpr ⟨mt mem_toList.mp hMem, s.nodup_toList⟩
    have hPerm : (s.insert i).1.toList.Perm (i :: s.toList) := by
      rw [List.perm_ext_iff_of_nodup (nodup_toList _) hNew]
      intro j
      rw [mem_toList, contains_insert, List.mem_cons, mem_toList, Bool.or_eq_true,
        decide_eq_true_eq, eq_comm]
    rw [IsCounted, hPerm.length_eq, List.length_cons, ← h, BitSet.insert, if_neg hMem]

theorem IsCounted.insertMany {s : BitSet} (h : s.IsCounted) (members : List Nat) :
    (s.insertMany members).IsCounted := by
  unfold BitSet.insertMany
  induction members generalizing s with
  | nil => exact h
  | cons i rest ih => exact ih (h.insert i)

-- ---------------------------------------------------------------------------
-- Comparison
-- ---------------------------------------------------------------------------

theorem toList_significantWords (s : BitSet) :
    s.significantWords.toList = s.words.toList.rdropWhile (· == 0) := by
  have hPop := List.popWhile_toArray (· == 0) s.words.toList
  rw [Array.toArray_toList] at hPop
  rw [significantWords, hPop]
  rfl

/-- Words that are left out are zero. -/
theorem word_eq_significant (s : BitSet) (k : Nat) :
    s.word k = s.significantWords.toList[k]?.getD 0 := by
  have hSplit : s.significantWords.toList ++ s.words.toList.rtakeWhile (· == 0) =
      s.words.toList := by
    rw [toList_significantWords, List.rdropWhile_append_rtakeWhile]
  rw [word_eq_getElem?, ← Array.getElem?_toList, ← hSplit, List.getElem?_append]
  split
  · rfl
  · rename_i hk
    rw [List.getElem?_eq_none (Nat.le_of_not_lt hk)]
    cases hZero : (s.words.toList.rtakeWhile (· == 0))[k - s.significantWords.toList.length]? with
    | none => rfl
    | some word =>
      have hWord := List.mem_rtakeWhile_imp (List.mem_of_getElem? hZero)
      exact beq_iff_eq.mp hWord

/-- The last significant word is not zero, so it is significant in every set with the
same words. -/
theorem length_significantWords_le {s t : BitSet} (h : ∀ k, s.word k = t.word k) :
    s.significantWords.toList.length ≤ t.significantWords.toList.length := by
  apply Nat.le_of_not_lt
  intro hLt
  have hNil : s.significantWords.toList ≠ [] := by
    intro hNil
    rw [hNil] at hLt
    exact Nat.not_lt_zero _ hLt
  have hLast : s.significantWords.toList.getLast hNil ≠ 0 := by
    simp only [toList_significantWords] at hNil ⊢
    exact fun hZero => List.rdropWhile_last_not _ _ hNil (beq_iff_eq.mpr hZero)
  have hIn := Nat.sub_lt (List.length_pos_of_ne_nil hNil) Nat.one_pos
  have hWord := h (s.significantWords.toList.length - 1)
  rw [word_eq_significant, word_eq_significant t, List.getElem?_eq_getElem hIn,
    List.getElem?_eq_none (by omega), Option.getD_some, ← List.getLast_eq_getElem hNil] at hWord
  exact hLast hWord

/-- Sets have the same significant words iff they have the same words. -/
theorem significantWords_eq_iff {s t : BitSet} :
    s.significantWords = t.significantWords ↔ ∀ k, s.word k = t.word k := by
  constructor
  · intro hEq k
    rw [word_eq_significant, hEq, ← word_eq_significant]
  · intro h
    have hLength := Nat.le_antisymm (length_significantWords_le h)
      (length_significantWords_le fun k => (h k).symm)
    apply Array.toList_inj.mp
    apply List.ext_getElem hLength
    intro k hs ht
    have hWord := h k
    rwa [word_eq_significant, word_eq_significant t, List.getElem?_eq_getElem hs,
      List.getElem?_eq_getElem ht] at hWord

theorem beq_iff {s t : BitSet} :
    (s == t) = true ↔ s.size = t.size ∧ ∀ k, s.word k = t.word k := by
  change beq s t = true ↔ _
  rw [beq, Bool.and_eq_true, beq_iff_eq, beq_iff_eq, significantWords_eq_iff]

/-- Bit sets that compare equal have the same members. -/
theorem contains_of_beq {s t : BitSet} (h : (s == t) = true) (i : Nat) :
    s.contains i = t.contains i := by
  rw [contains, contains, (beq_iff.mp h).2]

/-- Sets with the same members have the same words. -/
theorem word_eq_of_contains {s t : BitSet} (h : ∀ i, s.contains i = t.contains i) (k : Nat) :
    s.word k = t.word k := by
  apply word_eq_of_testBit
  intro i hi
  have hBit := h (64 * k + i)
  have hDiv : (64 * k + i) / 64 = k := by omega
  have hMod : (64 * k + i) % 64 = i := by omega
  rwa [contains, contains, hDiv, hMod] at hBit

section Counted

variable {s t : BitSet} (hs : s.IsCounted) (ht : t.IsCounted)
include hs ht

/-- A counted set has at least as many members as its subsets. -/
theorem size_le_of_contains (h : ∀ i, s.contains i = true → t.contains i = true) :
    s.size ≤ t.size := by
  have hSubset : s.toList ⊆ t.toList := by
    intro i hi
    exact mem_toList.mpr (h i (mem_toList.mp hi))
  rw [hs, ht]
  exact (List.subperm_of_subset s.nodup_toList hSubset).length_le

/-- Counted bit sets with the same members compare equal, also if they differ in
their number of words. -/
theorem beq_of_contains (h : ∀ i, s.contains i = t.contains i) : (s == t) = true := by
  have hSize : s.size = t.size :=
    Nat.le_antisymm (size_le_of_contains hs ht fun i hi => h i ▸ hi)
      (size_le_of_contains ht hs fun i hi => (h i).symm ▸ hi)
  exact beq_iff.mpr ⟨hSize, word_eq_of_contains h⟩

/-- The test for inclusion decides inclusion: the comparison of the numbers of
members that comes first never refuses a subset. -/
theorem isSubset_iff :
    s.isSubset t = true ↔ ∀ i, s.contains i = true → t.contains i = true := by
  rw [isSubset, Bool.and_eq_true, decide_eq_true_eq, List.all_eq_true]
  constructor
  · rintro ⟨-, hWords⟩ i hi
    have hZero : (s.diff t).word (i / 64) = 0 := by
      rw [word_diff]
      by_cases hk : i / 64 < s.words.size
      · exact beq_iff_eq.mp (hWords _ (List.mem_range.mpr hk))
      · rw [word_of_size_le (Nat.le_of_not_lt hk), UInt64.zero_and]
    have hOutside : (s.diff t).contains i = false := by
      rw [contains, hZero, testBit_zero]
    rw [contains_diff, hi, Bool.true_and, Bool.not_eq_false'] at hOutside
    exact hOutside
  · intro h
    have hNone (i : Nat) : (s.diff t).contains i = empty.contains i := by
      rw [contains_diff, empty, contains_withCapacity]
      grind
    refine ⟨size_le_of_contains hs ht h, fun k _ => ?_⟩
    rw [beq_iff_eq, ← word_diff, word_eq_of_contains hNone, empty, word_withCapacity]

end Counted

end BranchingTime.BitSet
