/-!
# BranchingTime — bit sets

A finite set of natural numbers, packed into 64-bit words and kept together
with its number of members. The checker stores sets of state positions this
way. Two bit sets with the same members may differ in their number of words:
words beyond the end count as zero, and equality ignores them.
-/

namespace BranchingTime

/-- A set of naturals: number `i` is a member iff bit `i % 64` of word `i / 64`
is set. `size` is the number of members. -/
structure BitSet where
  words : Array UInt64
  size : Nat
deriving Inhabited

namespace BitSet

-- ---------------------------------------------------------------------------
-- Words
-- ---------------------------------------------------------------------------

/-- Is bit `i` of `word` set? For `i` below 64. -/
def testBit (word : UInt64) (i : Nat) : Bool :=
  (word >>> UInt64.ofNat i) &&& 1 == 1

/-- The word whose only bit is bit `i`. For `i` below 64. -/
def singleBit (i : Nat) : UInt64 :=
  1 <<< UInt64.ofNat i

/-- The positions of the bits of `word`, ascending. -/
def bitsOf (word : UInt64) : List Nat :=
  (List.range 64).filter (testBit word)

/-- The position of the lowest bit of `word`; 64 if no bit is set. -/
def trailingZeros (word : UInt64) : Nat :=
  (List.range 64).findIdx (testBit word)

/-- `word` without its lowest bit. For a word that is not zero. -/
def clearLowest (word : UInt64) : UInt64 :=
  word &&& (word - 1)

/-- Word `k`, zero beyond the end. -/
def word (s : BitSet) (k : Nat) : UInt64 :=
  s.words.getD k 0

/-- The bit set with these words. -/
def ofWords (words : Array UInt64) : BitSet :=
  { words, size := words.foldl (fun n word => n + (bitsOf word).length) 0 }

/-- `words` with zero words added so that there are at least `n`. -/
def padded (words : Array UInt64) (n : Nat) : Array UInt64 :=
  words ++ Array.replicate (n - words.size) 0

-- ---------------------------------------------------------------------------
-- Construction and membership
-- ---------------------------------------------------------------------------

/-- The empty set, with room for the numbers below `capacity`. -/
def withCapacity (capacity : Nat) : BitSet :=
  { words := Array.replicate ((capacity + 63) / 64) 0, size := 0 }

/-- The empty set. -/
def empty : BitSet :=
  withCapacity 0

instance : EmptyCollection BitSet := ⟨empty⟩

/-- Is `i` a member? -/
def contains (s : BitSet) (i : Nat) : Bool :=
  testBit (s.word (i / 64)) (i % 64)

/-- Adds `i`, and tells whether it was missing. -/
def insert (s : BitSet) (i : Nat) : BitSet × Bool :=
  if s.contains i then
    (s, false)
  else
    let words := padded s.words (i / 64 + 1)
    ({ words := words.modify (i / 64) (· ||| singleBit (i % 64)), size := s.size + 1 }, true)

/-- Adds all of `members`. -/
def insertMany (s : BitSet) (members : List Nat) : BitSet :=
  members.foldl (fun t i => (t.insert i).1) s

/-- The set of `members`. -/
def ofList (members : List Nat) : BitSet :=
  empty.insertMany members

/-- Has the set no member? -/
def isEmpty (s : BitSet) : Bool :=
  s.size == 0

-- ---------------------------------------------------------------------------
-- Walking through the members
-- ---------------------------------------------------------------------------

/-- A walk through the members, ascending. It stands in word number `index`, of
which `current` is left: the bits of the members it has met are cleared. -/
structure Walk where
  words : Array UInt64
  index : Nat
  current : UInt64

/-- The walk that has met no member yet. -/
def walk (s : BitSet) : Walk :=
  { words := s.words, index := 0, current := s.word 0 }

namespace Walk

/-- What is left of a walk: whole words, and then the bits of the current one. -/
def rest (w : Walk) : Nat :=
  UInt64.size * (w.words.size - w.index) + w.current.toNat

/-- The walk behind the lowest bit of the current word. -/
def pastLowest (w : Walk) : Walk :=
  { w with current := clearLowest w.current }

/-- The walk at the start of the next word. -/
def nextWord (w : Walk) : Walk :=
  { w with index := w.index + 1, current := w.words.getD (w.index + 1) 0 }

theorem rest_pastLowest_lt {w : Walk} (h : w.current ≠ 0) : w.pastLowest.rest < w.rest := by
  have hPos : 0 < w.current.toNat :=
    Nat.pos_of_ne_zero fun hZero => h (UInt64.toNat_inj.mp hZero)
  have hLe : (1 : UInt64) ≤ w.current := UInt64.le_iff_toNat_le.mpr hPos
  have hCleared : (clearLowest w.current).toNat < w.current.toNat := by
    rw [clearLowest, UInt64.toNat_and]
    calc w.current.toNat &&& (w.current - 1).toNat ≤ (w.current - 1).toNat := Nat.and_le_right
      _ = w.current.toNat - 1 := UInt64.toNat_sub_of_le _ _ hLe
      _ < w.current.toNat := Nat.sub_lt hPos Nat.one_pos
  exact Nat.add_lt_add_left hCleared _

theorem rest_nextWord_lt {w : Walk} (h : w.index + 1 < w.words.size) :
    w.nextWord.rest < w.rest := by
  have hWord := (w.words.getD (w.index + 1) 0).toNat_lt_size
  have hLeft : w.words.size - w.index = w.words.size - (w.index + 1) + 1 := by omega
  simp only [rest, nextWord]
  rw [hLeft, Nat.mul_succ]
  omega

/-- The next member, and the walk behind it, of which less is left. Words without
bits are passed over. -/
def next (w : Walk) : Option (Nat × { v : Walk // v.rest < w.rest }) :=
  if hBits : w.current ≠ 0 then
    some (64 * w.index + trailingZeros w.current, ⟨w.pastLowest, rest_pastLowest_lt hBits⟩)
  else if hMore : w.index + 1 < w.words.size then
    w.nextWord.next.map fun (i, v) => (i, ⟨v, Nat.lt_trans v.2 (rest_nextWord_lt hMore)⟩)
  else
    none
termination_by w.rest
decreasing_by exact rest_nextWord_lt hMore

/-- The members that a walk still meets. -/
def toList (w : Walk) : List Nat :=
  match w.next with
  | none => []
  | some (i, v) => i :: v.1.toList
termination_by w.rest
decreasing_by exact v.2

end Walk

/-- The members, ascending. -/
def toList (s : BitSet) : List Nat :=
  s.walk.toList

-- ---------------------------------------------------------------------------
-- Algebra
-- ---------------------------------------------------------------------------

/-- The members of either set. -/
def union (s t : BitSet) : BitSet :=
  ofWords ((padded s.words t.words.size).mapIdx fun k word => word ||| t.word k)

/-- The members of both sets. -/
def inter (s t : BitSet) : BitSet :=
  ofWords (s.words.mapIdx fun k word => word &&& t.word k)

/-- The members of `s` that are not members of `t`. -/
def diff (s t : BitSet) : BitSet :=
  ofWords (s.words.mapIdx fun k word => word &&& ~~~t.word k)

/-- Is every member of `s` a member of `t`? -/
def isSubset (s t : BitSet) : Bool :=
  decide (s.size ≤ t.size) &&
    (List.range s.words.size).all fun k => s.word k &&& ~~~t.word k == 0

/-- The words up to the last one that is not zero. -/
def significantWords (s : BitSet) : Array UInt64 :=
  s.words.popWhile (· == 0)

/-- Have `s` and `t` the same members? -/
def beq (s t : BitSet) : Bool :=
  s.size == t.size && s.significantWords == t.significantWords

instance : BEq BitSet := ⟨beq⟩

end BitSet

end BranchingTime
