/-!
# BranchingTime — ascending lists

Finite sets of an ordered type are kept as strictly ascending lists: sets of
states, the labels of a state, the atoms of a formula. Two sets are then equal
iff their lists are, and answers come out sorted. An element is searched for by
halving. The binary operations are one merge of two lists that keeps, as asked,
what only the left list has, what both have, and what only the right list has.
-/

namespace BranchingTime

namespace Ascending

variable {α : Type} [LT α] [DecidableLT α]

/-- Puts `x` at its place in an ascending list, unless it is there already. -/
def insert (x : α) : List α → List α
  | [] => [x]
  | y :: ys =>
    if x < y then x :: y :: ys
    else if y < x then y :: insert x ys
    else y :: ys

/-- The ascending list of the elements of `xs`, each once. -/
def ofList (xs : List α) : List α :=
  xs.foldr insert []

/-- What a search finds: the place of the element, or the place to put it. -/
inductive Place where
  | found (i : Nat)
  | missing (i : Nat)
deriving DecidableEq

namespace Place

/-- Is the element there? -/
def isFound : Place → Bool
  | found _ => true
  | missing _ => false

/-- The same place, told in a list with `k` more elements in front. -/
def shift (k : Nat) : Place → Place
  | found i => found (i + k)
  | missing i => missing (i + k)

/-- Puts a missing element at its place. -/
def put {α : Type} (x : α) (xs : List α) : Place → List α
  | found _ => xs
  | missing i => xs.insertIdx i x

/-- Takes out the element that was found. -/
def cut {α : Type} (xs : List α) : Place → List α
  | found i => xs.eraseIdx i
  | missing _ => xs

end Place

/-- Searches an ascending list for `x`: compares it with the element in the
middle, and goes on in the half where it can be. -/
def search (x : α) (xs : List α) : Place :=
  let middle := xs.length / 2
  if _h : middle < xs.length then
    if x < xs[middle] then search x (xs.take middle)
    else if xs[middle] < x then (search x (xs.drop (middle + 1))).shift (middle + 1)
    else .found middle
  else .missing 0
termination_by xs.length
decreasing_by
  · rw [List.length_take]
    omega
  · rw [List.length_drop]
    omega

/-- Which elements a merge of two lists keeps. -/
structure Keep where
  left : Bool
  both : Bool
  right : Bool

/-- Merges two ascending lists, keeping what `keep` asks for. -/
def merge (keep : Keep) : List α → List α → List α
  | [], ys => if keep.right then ys else []
  | x :: xs, [] => if keep.left then x :: xs else []
  | x :: xs, y :: ys =>
    if x < y then
      let rest := merge keep xs (y :: ys)
      if keep.left then x :: rest else rest
    else if y < x then
      let rest := merge keep (x :: xs) ys
      if keep.right then y :: rest else rest
    else
      let rest := merge keep xs ys
      if keep.both then x :: rest else rest
termination_by xs ys => xs.length + ys.length

end Ascending

end BranchingTime
