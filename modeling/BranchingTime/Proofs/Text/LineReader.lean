import BranchingTime.Proofs.Result
import BranchingTime.Proofs.Text.Rows
import Mathlib.Data.List.Basic

/-!
# BranchingTime — readers that stop at the first fault

A `LineReader` goes through the lines of a text with a state that each of them
changes, up to the first one that is at fault, and reports that line's number.
The number can be trusted: what follows the line does not matter, and what
precedes it is in order.

## Results

* `LineReader.linesOf_take` — the lines up to a line, and before it.
* `LineReader.isFirstAtFault` — the reported line is the first one at fault.
-/

namespace BranchingTime.Text

/-- Line `n` of a text is the first one at fault. -/
structure IsFirstAtFault (text : String) (n : Nat) (fails passes : String → Prop) : Prop where
  /-- The line has more than blanks. -/
  filled : ∃ i line, n = i + 1 ∧ (physicalLines (dropByteOrderMark text.toList))[i]? = some line ∧
    line.all isBlank = false
  /-- What follows the line does not matter. -/
  again : ∀ text', (rows text').take n = (rows text).take n → fails text'
  /-- What precedes the line is in order. -/
  before : ∀ text', rows text' = (rows text).take (n - 1) → passes text'

theorem IsFirstAtFault.imp {text : String} {n : Nat} {fails fails' passes passes' : String → Prop}
    (h : IsFirstAtFault text n fails passes) (hFails : ∀ t, fails t → fails' t)
    (hPasses : ∀ t, passes t → passes' t) : IsFirstAtFault text n fails' passes' where
  filled := h.filled
  again := fun t ht => hFails t (h.again t ht)
  before := fun t ht => hPasses t (h.before t ht)

/-- A reader that goes through the lines of a text. -/
structure LineReader (σ φ : Type) where
  /-- Is this line passed over? -/
  skips : Line → Bool
  start : σ
  step : σ → Line → Except φ σ

namespace LineReader

variable {σ φ : Type} (r : LineReader σ φ)

/-- Reads a line, and says which one it was if it is at fault. -/
def stepAt (s : σ) (line : Line) : Except (Nat × φ) σ :=
  (r.step s line).mapError (line.number, ·)

/-- The lines of these rows that are not passed over. -/
def linesOf (pieces : List (List Char)) : List Line :=
  (filledRows pieces).filter fun line => !r.skips line

/-- Reads a text up to the first line at fault. -/
def read (text : String) : Except (Nat × φ) σ :=
  (r.linesOf (rows text)).foldlM r.stepAt r.start

theorem stepAt_eq_error_iff {s : σ} {line : Line} {n : Nat} {fault : φ} :
    r.stepAt s line = .error (n, fault) ↔ r.step s line = .error fault ∧ line.number = n := by
  unfold stepAt
  cases r.step s line with
  | ok s' => simp [Except.mapError]
  | error e => simp [Except.mapError, and_comm]

variable {pieces : List (List Char)} {front back : List Line} {line : Line}

/-- The first rows, up to a line and before it. -/
theorem linesOf_take (h : r.linesOf pieces = front ++ line :: back) :
    r.linesOf (pieces.take line.number) = front ++ [line] ∧
      r.linesOf (pieces.take (line.number - 1)) = front := by
  have hAscend : (r.linesOf pieces).Pairwise (·.number < ·.number) :=
    (pairwise_filledFrom 0 _).filter _
  rw [h, List.pairwise_append, List.pairwise_cons] at hAscend
  obtain ⟨-, ⟨hBehind, -⟩, hBefore⟩ := hAscend
  have hFront (other : Line) (hOther : other ∈ front) : other.number < line.number :=
    hBefore other hOther line List.mem_cons_self
  have hTake (n : Nat) : r.linesOf (pieces.take n) = (r.linesOf pieces).filter (·.number ≤ n) := by
    rw [linesOf, filledRows_take, List.filter_comm]
    rfl
  rw [hTake, hTake, h]
  constructor
  · rw [← List.singleton_append, ← List.append_assoc]
    refine filter_number_le (fun other hOther => ?_) hBehind
    rcases List.mem_append.mp hOther with hOther | hOther
    · exact Nat.le_of_lt (hFront other hOther)
    · obtain rfl := List.mem_singleton.mp hOther
      exact Nat.le_refl _
  · refine filter_number_le (fun other hOther => Nat.le_sub_one_of_lt (hFront other hOther)) ?_
    intro other hOther
    have hPos : 0 < line.number := by
      have hMem : line ∈ r.linesOf pieces := h ▸ List.mem_append_right _ List.mem_cons_self
      obtain ⟨i, _, -, -, rfl⟩ := exists_piece_of_mem (List.mem_of_mem_filter hMem)
      exact Nat.succ_pos _
    rcases List.mem_cons.mp hOther with rfl | hOther
    · omega
    · have := hBehind other hOther
      omega

/-- **The first fault.** A reader reports the first line at fault. -/
theorem isFirstAtFault {text : String} {n : Nat} {fault : φ} (h : r.read text = .error (n, fault)) :
    IsFirstAtFault text n (fun t => r.read t = .error (n, fault))
      fun t => ∃ s, r.read t = .ok s := by
  obtain ⟨front, line, back, s, hLines, hFront, hStep⟩ := foldlM_eq_error_iff.mp h
  obtain ⟨-, rfl⟩ := r.stepAt_eq_error_iff.mp hStep
  obtain ⟨hUpTo, hBefore⟩ := r.linesOf_take hLines
  constructor
  case filled =>
    have hMem : line ∈ r.linesOf (rows text) := hLines ▸ List.mem_append_right _ List.mem_cons_self
    have hFilled := List.mem_of_mem_filter hMem
    rw [← filledLines_eq_filledRows] at hFilled
    obtain ⟨i, piece, hPiece, hBlank, rfl⟩ := exists_piece_of_mem (k := 0) hFilled
    exact ⟨i, piece, by rw [Nat.zero_add], hPiece, hBlank⟩
  case again =>
    intro text' hSame
    obtain ⟨later, hSplit, -⟩ := exists_filledRows_eq_append (rows text') line.number
    refine foldlM_eq_error_iff.mpr
      ⟨front, line, later.filter fun line => !r.skips line, s, ?_, hFront, hStep⟩
    rw [linesOf, hSplit, hSame, List.filter_append, ← linesOf, hUpTo, List.append_assoc]
    rfl
  case before =>
    intro text' hRows
    exact ⟨s, by rw [read, hRows, hBefore, hFront]⟩

/-- The first rows of a text without a line at fault have none. -/
theorem exists_read_take {text text' : String} {s : σ} (h : r.read text = .ok s) {k : Nat}
    (hRows : rows text' = (rows text).take k) : ∃ s', r.read text' = .ok s' := by
  obtain ⟨later, hSplit, -⟩ := exists_filledRows_eq_append (rows text) k
  rw [read, linesOf, hSplit, List.filter_append, List.foldlM_append, bind_eq_ok_iff] at h
  obtain ⟨s', hFront, -⟩ := h
  exact ⟨s', by rw [read, linesOf, hRows, hFront]⟩

end LineReader

end BranchingTime.Text
