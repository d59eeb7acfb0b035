import BranchingTime.Proofs.Text.Splitting

/-!
# BranchingTime — texts row by row

The rows of a text are its lines, without the blanks at their ends. Readers see
no more of a text than its rows: the lines that they go through are the filled
rows, each with its number, where a byte order mark does not belong to the first
one. So what a reader sees of the first rows does not depend on the others.

## Results

* `filledLines_eq_filledRows` — a text shows no more than its rows.
* `filledRows_take`, `filledRows_append` — the first rows, and further ones.
-/

namespace BranchingTime.Text

-- ---------------------------------------------------------------------------
-- Lines, character by character
-- ---------------------------------------------------------------------------

theorem splitBy_ne_nil (isSeparator : Char → Bool) (cs : List Char) :
    splitBy isSeparator cs ≠ [] := by
  rw [splitBy_eq_splitOnP]
  exact List.splitOnP_ne_nil isSeparator cs

theorem physicalLines_newline (cs : List Char) :
    physicalLines ('\n' :: cs) = [] :: physicalLines cs := by
  have hPieces : splitBy (· == '\n') ('\n' :: cs) = [] :: splitBy (· == '\n') cs := rfl
  obtain ⟨piece, rest, hCons⟩ := List.exists_cons_of_ne_nil (splitBy_ne_nil (· == '\n') cs)
  rw [physicalLines, physicalLines, hPieces, hCons, List.getLast?_cons_cons]
  split <;> rfl

/-- A character goes to the first line, which there is then. -/
theorem physicalLines_cons {c : Char} (h : c ≠ '\n') (cs : List Char) :
    physicalLines (c :: cs) = (c :: (physicalLines cs).headD []) :: (physicalLines cs).tail := by
  obtain ⟨piece, rest, hCons⟩ := List.exists_cons_of_ne_nil (splitBy_ne_nil (· == '\n') cs)
  have hPieces : splitBy (· == '\n') (c :: cs) = (c :: piece) :: rest := by
    have hOther : (c == '\n') = false := beq_false_of_ne h
    rw [splitBy, List.foldr_cons, ← splitBy, hCons, hOther]
    rfl
  rw [physicalLines, physicalLines, hPieces, hCons]
  cases rest with
  | nil => cases piece <;> rfl
  | cons next others =>
    rw [List.getLast?_cons_cons, List.getLast?_cons_cons]
    split <;> rfl

theorem physicalLines_ne_nil {cs : List Char} (h : cs ≠ []) : physicalLines cs ≠ [] := by
  obtain ⟨c, rest, rfl⟩ := List.exists_cons_of_ne_nil h
  by_cases hc : c = '\n'
  · rw [hc, physicalLines_newline]
    exact List.cons_ne_nil _ _
  · rw [physicalLines_cons hc]
    exact List.cons_ne_nil _ _

/-- The byte order mark of a text is that of its first line, but a text of nothing
else has no line left without it. -/
theorem physicalLines_dropByteOrderMark {cs : List Char} (h : cs ≠ ['\ufeff']) :
    physicalLines (dropByteOrderMark cs) = (physicalLines cs).modifyHead dropByteOrderMark := by
  by_cases hMark : cs.head? = some '\ufeff'
  · obtain ⟨rest, rfl⟩ := List.head?_eq_some_iff.mp hMark
    have hRest : rest ≠ [] := fun hNil => h (congrArg _ hNil)
    obtain ⟨line, others, hLines⟩ := List.exists_cons_of_ne_nil (physicalLines_ne_nil hRest)
    rw [physicalLines_cons (by decide), hLines]
    exact hLines
  · rw [dropByteOrderMark_eq_self hMark]
    cases cs with
    | nil => rfl
    | cons c rest =>
      by_cases hc : c = '\n'
      · rw [hc, physicalLines_newline]
        rfl
      · rw [physicalLines_cons hc, List.modifyHead_cons, dropByteOrderMark_eq_self]
        exact hMark

-- ---------------------------------------------------------------------------
-- Blanks at the end
-- ---------------------------------------------------------------------------

theorem trim_trimRight (cs : List Char) : trim (trimRight cs) = trim cs := by
  obtain ⟨blanks, hBlanks, hEnd⟩ := exists_blanks_right cs
  have hTrim := trim_append_of_blank hBlanks (trimRight cs)
  rw [← hEnd] at hTrim
  exact hTrim.symm

theorem dropByteOrderMark_trimRight (cs : List Char) :
    dropByteOrderMark (trimRight cs) = trimRight (dropByteOrderMark cs) := by
  by_cases hMark : cs.head? = some '\ufeff'
  · obtain ⟨rest, rfl⟩ := List.head?_eq_some_iff.mp hMark
    have hFilled : isBlank '\ufeff' = false := by decide
    have hTrim := trimRight_append_cons hFilled [] rest
    rw [List.nil_append] at hTrim
    rw [hTrim]
    rfl
  · rw [dropByteOrderMark_eq_self hMark, dropByteOrderMark_eq_self]
    intro hFirst
    obtain ⟨blanks, -, hEnd⟩ := exists_blanks_right cs
    refine hMark ?_
    rw [hEnd, List.head?_append, hFirst]
    rfl

-- ---------------------------------------------------------------------------
-- Rows
-- ---------------------------------------------------------------------------

/-- The lines of a text, without the blanks at their ends. -/
def rows (text : String) : List (List Char) :=
  (physicalLines text.toList).map trimRight

/-- The filled lines among these, which `k` others precede. -/
def filledFrom (k : Nat) (pieces : List (List Char)) : List Line :=
  ((pieces.zipIdx k).map fun (piece, i) => ⟨i + 1, trim piece⟩).filter
    fun line => !line.text.isEmpty

/-- What readers see of rows. -/
def filledRows (pieces : List (List Char)) : List Line :=
  filledFrom 0 (pieces.modifyHead dropByteOrderMark)

theorem filledFrom_append (k : Nat) (front back : List (List Char)) :
    filledFrom k (front ++ back) = filledFrom k front ++ filledFrom (k + front.length) back := by
  rw [filledFrom, List.zipIdx_append, List.map_append, List.filter_append]
  rfl

theorem filledFrom_cons (k : Nat) (piece : List Char) (rest : List (List Char)) :
    filledFrom k (piece :: rest) = filledFrom k [piece] ++ filledFrom (k + 1) rest :=
  filledFrom_append k [piece] rest

theorem filledFrom_singleton (k : Nat) (piece : List Char) :
    filledFrom k [piece] = if piece.all isBlank then [] else [⟨k + 1, trim piece⟩] := by
  rw [← isEmpty_trim, filledFrom, List.zipIdx_singleton, List.map_singleton]
  cases h : trim piece with
  | nil => simp [h]
  | cons c rest => simp [h]

theorem filledFrom_map_trimRight (k : Nat) (pieces : List (List Char)) :
    filledFrom k (pieces.map trimRight) = filledFrom k pieces := by
  induction pieces generalizing k with
  | nil => rfl
  | cons piece rest ih =>
    rw [List.map_cons, filledFrom_cons, ih, filledFrom_cons k piece, filledFrom_singleton,
      filledFrom_singleton, ← isEmpty_trim, trim_trimRight, isEmpty_trim]

theorem exists_piece_of_mem {k : Nat} {pieces : List (List Char)} {line : Line}
    (h : line ∈ filledFrom k pieces) :
    ∃ i piece, pieces[i]? = some piece ∧ piece.all isBlank = false ∧
      line = ⟨k + i + 1, trim piece⟩ := by
  obtain ⟨hLine, hFilled⟩ := List.mem_filter.mp h
  obtain ⟨⟨piece, i⟩, hPiece, rfl⟩ := List.mem_map.mp hLine
  obtain ⟨hLe, hPiece⟩ := List.mem_zipIdx_iff_le_and_getElem?_sub.mp hPiece
  refine ⟨i - k, piece, hPiece, ?_, ?_⟩
  · rw [← isEmpty_trim]
    simpa using hFilled
  · rw [Nat.add_sub_cancel' hLe]

theorem pairwise_filledFrom (k : Nat) (pieces : List (List Char)) :
    (filledFrom k pieces).Pairwise (·.number < ·.number) := by
  induction pieces generalizing k with
  | nil => exact List.Pairwise.nil
  | cons piece rest ih =>
    rw [filledFrom_cons]
    refine List.pairwise_append.mpr ⟨?_, ih _, ?_⟩
    · exact List.Pairwise.filter _ (List.pairwise_singleton _ _)
    · intro line hLine line' hLine'
      obtain ⟨i, _, hPiece, -, rfl⟩ := exists_piece_of_mem hLine
      obtain ⟨j, _, -, -, rfl⟩ := exists_piece_of_mem hLine'
      have hFirst := (List.getElem?_eq_some_iff.mp hPiece).1
      rw [List.length_singleton] at hFirst
      dsimp only
      omega

/-- The lines that readers go through are the filled rows. -/
theorem filledLines_eq_filledRows (text : String) :
    filledLines (dropByteOrderMark text.toList) = filledRows (rows text) := by
  have hTrim : (rows text).modifyHead dropByteOrderMark =
      ((physicalLines text.toList).modifyHead dropByteOrderMark).map trimRight := by
    rw [rows]
    cases physicalLines text.toList with
    | nil => rfl
    | cons line rest =>
      rw [List.map_cons, List.modifyHead_cons, dropByteOrderMark_trimRight]
      rfl
  rw [filledRows, hTrim, filledFrom_map_trimRight]
  by_cases hOnly : text.toList = ['\ufeff']
  · rw [hOnly]
    rfl
  · rw [← physicalLines_dropByteOrderMark hOnly]
    rfl

/-- The lines that readers go through are the filled pieces between line feeds. -/
theorem filledLines_eq_filledFrom (text : List Char) :
    filledLines text = filledFrom 0 (text.splitOn '\n') := by
  have hPhysical : filledLines text = filledFrom 0 (physicalLines text) := rfl
  rw [hPhysical, List.splitOn_eq_splitOnP, ← splitBy_eq_splitOnP, physicalLines]
  split
  · rename_i hLast
    obtain ⟨pieces, hPieces⟩ := List.getLast?_eq_some_iff.mp hLast
    rw [hPieces, List.dropLast_concat, filledFrom_append]
    exact (List.append_nil _).symm
  · rfl

theorem filledRows_append {front : List (List Char)} (h : front ≠ []) (back : List (List Char)) :
    filledRows (front ++ back) = filledRows front ++ filledFrom front.length back := by
  obtain ⟨row, rest, rfl⟩ := List.exists_cons_of_ne_nil h
  have hSplit := filledFrom_append 0 (dropByteOrderMark row :: rest) back
  rw [Nat.zero_add] at hSplit
  exact hSplit

/-- The lines up to number `n`, if the lines before and after it are known. -/
theorem filter_number_le {front back : List Line} {n : Nat}
    (hFront : ∀ line ∈ front, line.number ≤ n) (hBack : ∀ line ∈ back, n < line.number) :
    (front ++ back).filter (·.number ≤ n) = front := by
  have hAll : front.filter (·.number ≤ n) = front :=
    List.filter_eq_self.mpr fun line hLine => decide_eq_true (hFront line hLine)
  have hNone : back.filter (·.number ≤ n) = [] := by
    refine List.filter_eq_nil_iff.mpr fun line hLine hLe => ?_
    exact Nat.not_le.mpr (hBack line hLine) (of_decide_eq_true hLe)
  rw [List.filter_append, hAll, hNone, List.append_nil]

/-- Behind the first `n` rows there are only lines of higher numbers. -/
theorem exists_filledRows_eq_append (pieces : List (List Char)) (n : Nat) :
    ∃ later, filledRows pieces = filledRows (pieces.take n) ++ later ∧
      ∀ line ∈ later, n < line.number := by
  have hTake : (pieces.take n).modifyHead dropByteOrderMark =
      (pieces.modifyHead dropByteOrderMark).take n := by
    cases pieces <;> cases n <;> rfl
  rw [filledRows, filledRows, hTake]
  generalize pieces.modifyHead dropByteOrderMark = pieces
  have hSplit := filledFrom_append 0 (pieces.take n) (pieces.drop n)
  rw [List.take_append_drop] at hSplit
  refine ⟨_, hSplit, fun line hLine => ?_⟩
  obtain ⟨i, _, hPiece, -, rfl⟩ := exists_piece_of_mem hLine
  have hLt := (List.getElem?_eq_some_iff.mp hPiece).1
  rw [List.length_drop] at hLt
  rw [List.length_take]
  show n < 0 + min n pieces.length + i + 1
  omega

/-- The first rows show the lines up to their number. -/
theorem filledRows_take (pieces : List (List Char)) (n : Nat) :
    filledRows (pieces.take n) = (filledRows pieces).filter (·.number ≤ n) := by
  obtain ⟨later, hSplit, hLater⟩ := exists_filledRows_eq_append pieces n
  rw [hSplit, filter_number_le ?_ hLater]
  intro line hLine
  obtain ⟨i, _, hPiece, -, rfl⟩ := exists_piece_of_mem hLine
  have hLt := (List.getElem?_eq_some_iff.mp hPiece).1
  rw [List.length_modifyHead, List.length_take] at hLt
  show 0 + i + 1 ≤ n
  omega

end BranchingTime.Text
