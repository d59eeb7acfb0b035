import BranchingTime.Proofs.BitSet
import Mathlib.Data.Finset.Card

/-!
# BranchingTime — programs on sets

Sets are not computed all at once: they are made, changed in place and combined
with one another, and what is found on the way decides how it goes on. A program
is a sequence of such operations on numbered registers. If the operations on two
kinds of sets keep a relation between them, all programs keep it, and they give
the same answers for both.

Bit sets are related in this way to finite sets of numbers. So a program cannot
tell that its sets are packed into words, however many words it made them with,
or that the numbers of their members are kept rather than counted.

## Results

* `Refines.step`, `Refines.run` — one operation, and whole programs.
* `BitSet.refines_finiteSets` — the operations on bit sets act as on finite sets.
* `BitSet.run_represents_sets` — whatever a program does, its bit sets are finite
  sets in all that can be asked of them.
-/

namespace BranchingTime

-- ---------------------------------------------------------------------------
-- Registers
-- ---------------------------------------------------------------------------

/-- The operations on a kind of sets `α`: `γ` are the ways to make a set, `υ` the
changes of one set, which may give an answer, and `β` the changes of one set by
another. -/
structure Operations (γ υ β α : Type) where
  make : γ → α
  change : υ → α → α × Option Bool
  combine : β → α → α → α

/-- One operation on registers. -/
inductive Instruction (γ υ β : Type) where
  /-- Puts a new set into register `r`. -/
  | make (r : Nat) (how : γ)
  /-- Changes the set in register `r`. -/
  | change (r : Nat) (how : υ)
  /-- Changes the set of register `a` by that of register `b`, and puts the result
  into register `r`; in place, if `r` is `a`. -/
  | combine (r a : Nat) (how : β) (b : Nat)

namespace Operations

variable {γ υ β α : Type} (ops : Operations γ υ β α)

/-- Carries out one operation. -/
def step (registers : Nat → α) : Instruction γ υ β → (Nat → α) × Option Bool
  | .make r how => (Function.update registers r (ops.make how), none)
  | .change r how =>
    let (changed, answer) := ops.change how (registers r)
    (Function.update registers r changed, answer)
  | .combine r a how b =>
    (Function.update registers r (ops.combine how (registers a) (registers b)), none)

/-- Carries out a program, and collects the answers. -/
def run (registers : Nat → α) : List (Instruction γ υ β) → (Nat → α) × List (Option Bool)
  | [] => (registers, [])
  | instruction :: rest =>
    let (after, answer) := ops.step registers instruction
    let (final, answers) := run after rest
    (final, answer :: answers)

end Operations

-- ---------------------------------------------------------------------------
-- Refinement
-- ---------------------------------------------------------------------------

/-- All operations keep the relation `R`, and related sets give the same answers. -/
structure Refines {γ υ β α α' : Type} (ops : Operations γ υ β α) (spec : Operations γ υ β α')
    (R : α → α' → Prop) : Prop where
  make : ∀ how, R (ops.make how) (spec.make how)
  change : ∀ how x y, R x y →
    R (ops.change how x).1 (spec.change how y).1 ∧ (ops.change how x).2 = (spec.change how y).2
  combine : ∀ how x x' y y', R x y → R x' y' →
    R (ops.combine how x x') (spec.combine how y y')

namespace Refines

variable {γ υ β α α' : Type} {ops : Operations γ υ β α} {spec : Operations γ υ β α'}
variable {R : α → α' → Prop} {registers : Nat → α} {registers' : Nat → α'}

/-- Related sets that are put into the same register leave all registers related. -/
theorem update (hR : ∀ r, R (registers r) (registers' r)) (k : Nat) {x : α} {y : α'} (hxy : R x y)
    (r : Nat) : R (Function.update registers k x r) (Function.update registers' k y r) := by
  by_cases hr : r = k
  · rw [hr, Function.update_self, Function.update_self]
    exact hxy
  · rw [Function.update_of_ne hr, Function.update_of_ne hr]
    exact hR r

variable (h : Refines ops spec R)
include h

theorem step (hR : ∀ r, R (registers r) (registers' r)) (instruction : Instruction γ υ β) :
    (∀ r, R ((ops.step registers instruction).1 r) ((spec.step registers' instruction).1 r)) ∧
      (ops.step registers instruction).2 = (spec.step registers' instruction).2 := by
  cases instruction with
  | make r how => exact ⟨update hR r (h.make how), rfl⟩
  | change r how =>
    obtain ⟨hChanged, hAnswer⟩ := h.change how _ _ (hR r)
    exact ⟨update hR r hChanged, hAnswer⟩
  | combine r a how b => exact ⟨update hR r (h.combine how _ _ _ _ (hR a) (hR b)), rfl⟩

theorem run (hR : ∀ r, R (registers r) (registers' r)) (program : List (Instruction γ υ β)) :
    (∀ r, R ((ops.run registers program).1 r) ((spec.run registers' program).1 r)) ∧
      (ops.run registers program).2 = (spec.run registers' program).2 := by
  induction program generalizing registers registers' with
  | nil => exact ⟨hR, rfl⟩
  | cons instruction rest ih =>
    obtain ⟨hAfter, hAnswer⟩ := h.step hR instruction
    obtain ⟨hFinal, hAnswers⟩ := ih hAfter
    exact ⟨hFinal, congrArg₂ List.cons hAnswer hAnswers⟩

end Refines

-- ---------------------------------------------------------------------------
-- Bit sets
-- ---------------------------------------------------------------------------

namespace BitSet

/-- The ways to make a set of numbers. -/
inductive Creation where
  /-- Without members, with room for the numbers below `capacity`. -/
  | new (capacity : Nat)
  | empty
  | collect (members : List Nat)

/-- The changes of one set. -/
inductive Change where
  /-- Adds a number; the answer is whether it was missing. -/
  | insert (i : Nat)
  | extend (members : List Nat)

/-- The changes of one set by another. -/
inductive Combination where
  | union
  | inter
  | diff

/-- A program on sets of numbers. -/
abbrev Program := List (Instruction Creation Change Combination)

/-- The operations on bit sets. -/
def operations : Operations Creation Change Combination BitSet where
  make
    | .new capacity => withCapacity capacity
    | .empty => empty
    | .collect members => ofList members
  change
    | .insert i, s =>
      let (t, isNew) := s.insert i
      (t, some isNew)
    | .extend members, s => (s.insertMany members, none)
  combine
    | .union => union
    | .inter => inter
    | .diff => diff

/-- The same operations on finite sets. -/
def finiteSets : Operations Creation Change Combination (Finset Nat) where
  make
    | .new _ => ∅
    | .empty => ∅
    | .collect members => members.toFinset
  change
    | .insert i, A => (Insert.insert i A, some (decide (i ∉ A)))
    | .extend members, A => (A ∪ members.toFinset, none)
  combine
    | .union => fun A B => A ∪ B
    | .inter => fun A B => A ∩ B
    | .diff => fun A B => A \ B

/-- The bit set is counted and has the members of `A`. -/
structure Represents (s : BitSet) (A : Finset Nat) : Prop where
  counted : s.IsCounted
  members : ∀ i, s.contains i = true ↔ i ∈ A

namespace Represents

variable {s t : BitSet} {A B : Finset Nat}

theorem empty : empty.Represents ∅ where
  counted := isCounted_withCapacity 0
  members i := by simp [BitSet.empty]

theorem insertMany (h : s.Represents A) (members : List Nat) :
    (s.insertMany members).Represents (A ∪ members.toFinset) where
  counted := h.counted.insertMany members
  members i := by simp [h.members, or_comm]

/-- The answer to an insertion is whether the number was missing. -/
theorem insert_answer (h : s.Represents A) (i : Nat) : (s.insert i).2 = decide (i ∉ A) := by
  have hMember := h.members i
  unfold BitSet.insert
  split <;> simp_all

theorem size_eq_card (h : s.Represents A) : s.size = A.card := by
  have hSame : s.toList.toFinset = A := by
    ext i
    rw [List.mem_toFinset, mem_toList, h.members]
  rw [h.counted, ← List.toFinset_card_of_nodup s.nodup_toList, hSame]

/-- Counting the bits of all words gives the number that is kept. -/
theorem size_ofWords (h : s.Represents A) : (ofWords s.words).size = s.size :=
  (isCounted_ofWords s.words).trans h.counted.symm

theorem beq_iff (hs : s.Represents A) (ht : t.Represents B) : (s == t) = true ↔ A = B := by
  constructor
  · intro hEq
    ext i
    rw [← hs.members, ← ht.members, contains_of_beq hEq]
  · rintro rfl
    refine beq_of_contains hs.counted ht.counted fun i => ?_
    rw [Bool.eq_iff_iff, hs.members, ht.members]

theorem isSubset_iff (hs : s.Represents A) (ht : t.Represents B) :
    s.isSubset t = true ↔ A ⊆ B := by
  rw [BitSet.isSubset_iff hs.counted ht.counted]
  simp only [hs.members, ht.members]
  rfl

end Represents

/-- The operations on bit sets act as on finite sets. -/
theorem refines_finiteSets : Refines operations finiteSets Represents := by
  constructor
  case make =>
    rintro (capacity | _ | members)
    · exact ⟨isCounted_withCapacity capacity, fun i => by simp [operations, finiteSets]⟩
    · exact .empty
    · simpa [operations, finiteSets, ofList] using Represents.empty.insertMany members
  case change =>
    rintro (i | members) s A h
    · refine ⟨⟨h.counted.insert i, fun j => ?_⟩, congrArg some (h.insert_answer i)⟩
      change (s.insert i).1.contains j = true ↔ j ∈ Insert.insert i A
      rw [contains_insert, Bool.or_eq_true, decide_eq_true_eq, h.members, Finset.mem_insert,
        eq_comm]
    · exact ⟨h.insertMany members, rfl⟩
  case combine =>
    intro how s t A B hs ht
    have hCounted : (operations.combine how s t).IsCounted := by
      cases how <;> exact isCounted_ofWords _
    refine ⟨hCounted, fun i => ?_⟩
    cases how <;> simp [operations, finiteSets, ← hs.members, ← ht.members]

/-- **Bit sets are finite sets.** Run any program on bit sets, and the same program
on finite sets. The answers are the same. Afterwards, and so at every moment,
each bit set has the number of members of the finite set in its place, which is the
number of bits set in its words, and the same members; walking through it meets
them in ascending order; and comparing two bit sets, of any numbers of words,
compares the finite sets. -/
theorem run_represents_sets (program : Program) :
    let bits := operations.run (fun _ => empty) program
    let sets := finiteSets.run (fun _ => ∅) program
    bits.2 = sets.2 ∧
    ∀ r,
      let s := bits.1 r
      let A := sets.1 r
      s.size = A.card ∧ s.size = (ofWords s.words).size ∧
      (∀ i, s.contains i = true ↔ i ∈ A) ∧
      (∀ i, (s.insert i).2 = true ↔ i ∉ A) ∧
      (∀ i, i ∈ s.toList ↔ i ∈ A) ∧ s.toList.Pairwise (· < ·) ∧
      ∀ r',
        let t := bits.1 r'
        let B := sets.1 r'
        ((s == t) = true ↔ A = B) ∧ (s.isSubset t = true ↔ A ⊆ B) := by
  intro bits sets
  obtain ⟨hSets, hAnswers⟩ := refines_finiteSets.run (fun _ => Represents.empty) program
  refine ⟨hAnswers, ?_⟩
  intro r s A
  have h : s.Represents A := hSets r
  have hAnswer (i : Nat) : (s.insert i).2 = true ↔ i ∉ A := by
    rw [h.insert_answer, decide_eq_true_eq]
  have hListed (i : Nat) : i ∈ s.toList ↔ i ∈ A := by
    rw [mem_toList, h.members]
  refine ⟨h.size_eq_card, h.size_ofWords.symm, h.members, hAnswer, hListed, s.pairwise_toList, ?_⟩
  intro r' t B
  exact ⟨h.beq_iff (hSets r'), h.isSubset_iff (hSets r')⟩

end BitSet

end BranchingTime
