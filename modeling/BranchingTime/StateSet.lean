import BranchingTime.Proofs.Ascending

/-!
# BranchingTime — sets of states

A set of states is the strictly ascending list of its identifiers, and carries
the proof that it ascends: an operation can trust what the others have left. The
checker answers with such sets, and models list their states in them.
-/

namespace BranchingTime

/-- A set of states. The members ascend strictly. -/
@[ext]
structure StateSet where
  members : List StateId
  ascending : members.Pairwise (· < ·)
deriving DecidableEq

namespace StateSet

/-- The set without members. -/
def empty : StateSet := ⟨[], .nil⟩

instance : EmptyCollection StateSet := ⟨empty⟩

instance : Inhabited StateSet := ⟨empty⟩

/-- The set of the given states, in any order and with repetitions. -/
def ofList (ids : List StateId) : StateSet :=
  ⟨Ascending.ofList ids, Ascending.pairwise_ofList ids⟩

/-- The set of the states with the given numbers. -/
def ofNumbers (numbers : List UInt32) : StateSet :=
  ofList (numbers.map Ident.mk)

/-- The members, ascending. -/
def toList (s : StateSet) : List StateId :=
  s.members

/-- The number of members. -/
def size (s : StateSet) : Nat :=
  s.members.length

/-- Has the set no member? -/
def isEmpty (s : StateSet) : Bool :=
  s.members.isEmpty

/-- Is `id` a member? -/
def contains (s : StateSet) (id : StateId) : Bool :=
  (Ascending.search id s.members).isFound

/-- Adds `id`, and tells whether it was missing. -/
def insert (s : StateSet) (id : StateId) : StateSet × Bool :=
  let place := Ascending.search id s.members
  (⟨place.put id s.members, (Ascending.isOf_search s.ascending).pairwise_put s.ascending⟩,
    !place.isFound)

/-- Removes `id`, and tells whether it was there. -/
def erase (s : StateSet) (id : StateId) : StateSet × Bool :=
  let place := Ascending.search id s.members
  (⟨place.cut s.members, place.pairwise_cut s.ascending⟩, place.isFound)

/-- Adds all of `ids`. -/
def insertMany (s : StateSet) (ids : List StateId) : StateSet :=
  ofList (s.members ++ ids)

/-- The members of either set. -/
def union (s t : StateSet) : StateSet :=
  ⟨Ascending.merge ⟨true, true, true⟩ s.members t.members,
    Ascending.pairwise_merge _ s.ascending t.ascending⟩

/-- The members of both sets. -/
def inter (s t : StateSet) : StateSet :=
  ⟨Ascending.merge ⟨false, true, false⟩ s.members t.members,
    Ascending.pairwise_merge _ s.ascending t.ascending⟩

/-- The members of `s` that are not members of `t`. -/
def diff (s t : StateSet) : StateSet :=
  ⟨Ascending.merge ⟨true, false, false⟩ s.members t.members,
    Ascending.pairwise_merge _ s.ascending t.ascending⟩

/-- The members of `whole` that are not members of `s`. -/
def complement (s whole : StateSet) : StateSet :=
  whole.diff s

/-- Is every member of `s` a member of `t`? -/
def isSubset (s t : StateSet) : Bool :=
  decide (s.size ≤ t.size) && (s.diff t).isEmpty

/-- The names of the members in braces. -/
def render (s : StateSet) : String :=
  "\x7b" ++ String.intercalate ", " (s.members.map Ident.name) ++ "\x7d"

end StateSet

end BranchingTime
