import BranchingTime.Text.Decimal

/-!
# BranchingTime — identifiers of states and transitions

A state is named by `s` and a 32-bit number, a transition by `t` and a 32-bit
number. The two kinds of identifiers differ in their letter only. `ofName?` reads
a name and `name` writes it; reading allows leading zeros, writing never produces
them. Identifiers are ordered by their number.
-/

namespace BranchingTime

-- ---------------------------------------------------------------------------
-- Identifiers
-- ---------------------------------------------------------------------------

/-- An identifier of the kind with this letter. -/
structure Ident (letter : Char) where
  number : UInt32
deriving DecidableEq, Inhabited

namespace Ident

variable {letter : Char}

instance : LT (Ident letter) := ⟨fun a b => a.number < b.number⟩

instance : DecidableLT (Ident letter) := fun a b =>
  inferInstanceAs (Decidable (a.number < b.number))

/-- The identifier called `name`: its letter and a numeral. -/
def ofName? (letter : Char) (name : String) : Option (Ident letter) :=
  match name.toList with
  | [] => none
  | first :: digits => if first = letter then (Text.word32? digits).map mk else none

/-- The name of an identifier. -/
def name (id : Ident letter) : String :=
  String.singleton letter ++ toString id.number.toNat

end Ident

-- ---------------------------------------------------------------------------
-- The two kinds
-- ---------------------------------------------------------------------------

/-- The identifier of a state. -/
abbrev StateId := Ident 's'

/-- The identifier of a transition. -/
abbrev TransitionId := Ident 't'

end BranchingTime
