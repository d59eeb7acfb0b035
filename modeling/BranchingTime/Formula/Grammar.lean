import BranchingTime.Formula.Tree
import BranchingTime.Token

/-!
# BranchingTime — the grammar of formulas

    formula    := expression ((AND | OR | IMPLIES) formula)?
    expression := ATOM
                | NOT formula
                | "(" formula ")"
                | (AX | AF | AG | EX | EF | EG) expression
                | (E | A) "(" expression U expression ")"

as a relation between tokens and the trees that they may be read as. The
grammar is ambiguous: `NOT p AND q` is a negated conjunction, and also a
conjunction whose left side is negated. The parser takes the first reading.
-/

namespace BranchingTime

mutual

/-- The tokens can be read as a formula with this tree. -/
inductive IsFormula : List Token → Tree → Prop where
  | expression {tokens : List Token} {t : Tree} :
      IsExpression tokens t → IsFormula tokens t
  | connective {left right : List Token} {t u : Tree} (op : Connective) :
      IsExpression left t → IsFormula right u →
        IsFormula (left ++ .connective op :: right) (.connective op t u)

/-- The tokens can be read as an expression with this tree. -/
inductive IsExpression : List Token → Tree → Prop where
  | atom (name : String) :
      IsExpression [.atom name] (.atom name)
  | not {tokens : List Token} {t : Tree} :
      IsFormula tokens t → IsExpression (.not :: tokens) (.not t)
  | group {tokens : List Token} {t : Tree} :
      IsFormula tokens t → IsExpression (.leftParen :: (tokens ++ [.rightParen])) t
  | temporal {tokens : List Token} {t : Tree} (q : Quantifier) (p : PathOperator) :
      IsExpression tokens t → IsExpression (.temporal q p :: tokens) (.temporal q p t)
  | untl {left right : List Token} {t u : Tree} (q : Quantifier) :
      IsExpression left t → IsExpression right u →
        IsExpression
          (.quantifier q :: .leftParen :: (left ++ .untl :: (right ++ [.rightParen])))
          (.untl q t u)

end

/-- The tokens are a sentence of the grammar. -/
def IsSentence (tokens : List Token) : Prop :=
  ∃ t, IsFormula tokens t

/-- The tokens start a sentence of the grammar. -/
def StartsSentence (tokens : List Token) : Prop :=
  ∃ rest, IsSentence (tokens ++ rest)

/-- The token may come after `tokens` in a sentence. The end of the text may come
after a whole sentence only. -/
def Token.MayFollow (tokens : List Token) : Token → Prop
  | .endOfText => IsSentence tokens
  | token => StartsSentence (tokens ++ [token])

/-- Some token of this kind may come after `tokens`. -/
def Token.Kind.MayFollow (tokens : List Token) (kind : Token.Kind) : Prop :=
  ∃ token : Token, token.kind = kind ∧ token.MayFollow tokens

end BranchingTime
