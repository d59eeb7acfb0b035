/-!
# BranchingTime — the operators of the logic

A temporal operator joins a path quantifier, which says whether one path or
every path is meant, to what it asks of the path. Next to them stand the
binary connectives of propositional logic.
-/

namespace BranchingTime

/-- A binary connective. -/
inductive Connective where
  | and
  | or
  | implies
deriving DecidableEq, Inhabited

/-- The keyword of a connective. -/
def Connective.keyword : Connective → String
  | .and => "AND"
  | .or => "OR"
  | .implies => "IMPLIES"

/-- Which of the paths that start in a state are meant. -/
inductive Quantifier where
  /-- At least one path. -/
  | some
  /-- Every path. -/
  | all
deriving DecidableEq, Inhabited

/-- The keyword of a path quantifier. -/
def Quantifier.keyword : Quantifier → String
  | .some => "E"
  | .all => "A"

/-- What an operator with one operand asks of a path. -/
inductive PathOperator where
  /-- The operand holds in the second state of the path. -/
  | next
  /-- The operand holds in some state of the path. -/
  | eventually
  /-- The operand holds in every state of the path. -/
  | always
deriving DecidableEq, Inhabited

/-- The letter of a path operator. -/
def PathOperator.letter : PathOperator → String
  | .next => "X"
  | .eventually => "F"
  | .always => "G"

/-- The keyword of a temporal operator with one operand. -/
def temporalKeyword (q : Quantifier) (p : PathOperator) : String :=
  q.keyword ++ p.letter

end BranchingTime
