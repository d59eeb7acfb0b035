import BranchingTime.Operator
import BranchingTime.Text.Quoted

/-!
# BranchingTime — tokens of formulas

What the text of a formula is made of. Letters form words: a word that spells
a keyword is that keyword, any other word is an atom. Besides there are the
two parentheses; every other visible character is an invalid token of its
own, and the end of the text is a token too.
-/

namespace BranchingTime

/-- A token of a formula's text. -/
inductive Token where
  | atom (name : String)
  | not
  | connective (op : Connective)
  | temporal (q : Quantifier) (p : PathOperator)
  | quantifier (q : Quantifier)
  | untl
  | leftParen
  | rightParen
  | invalid (c : Char)
  | endOfText
deriving DecidableEq, Inhabited

namespace Token

/-- A token without what it carries: messages list the kinds that would have
been accepted. -/
inductive Kind where
  | atom
  | not
  | connective (op : Connective)
  | temporal (q : Quantifier) (p : PathOperator)
  | quantifier (q : Quantifier)
  | untl
  | leftParen
  | rightParen
  | invalid
  | endOfText
deriving DecidableEq, Inhabited

/-- The kind of a token. -/
def kind : Token → Kind
  | atom _ => .atom
  | not => .not
  | connective op => .connective op
  | temporal q p => .temporal q p
  | quantifier q => .quantifier q
  | untl => .untl
  | leftParen => .leftParen
  | rightParen => .rightParen
  | invalid _ => .invalid
  | endOfText => .endOfText

/-- How messages call a kind of token. -/
def Kind.render : Kind → String
  | .atom => "atom"
  | .not => "NOT"
  | .connective op => op.keyword
  | .temporal q p => temporalKeyword q p
  | .quantifier q => q.keyword
  | .untl => "U"
  | .leftParen => "'('"
  | .rightParen => "')'"
  | .invalid => "invalid character"
  | .endOfText => "end of input"

/-- How messages show a token. -/
def render : Token → String
  | atom name => "atom \"" ++ name ++ "\""
  | invalid c => "invalid character " ++ Text.quoted c
  | token => token.kind.render

-- ---------------------------------------------------------------------------
-- Words
-- ---------------------------------------------------------------------------

/-- The keywords and their tokens. -/
def keywords : List (String × Token) :=
  [("NOT", not),
   ("AND", connective .and), ("OR", connective .or), ("IMPLIES", connective .implies),
   ("AX", temporal .all .next), ("AF", temporal .all .eventually),
   ("AG", temporal .all .always), ("EX", temporal .some .next),
   ("EF", temporal .some .eventually), ("EG", temporal .some .always),
   ("E", quantifier .some), ("A", quantifier .all), ("U", untl)]

/-- The token of a word: the keyword that it spells exactly, else an atom. -/
def ofWord (word : String) : Token :=
  (keywords.lookup word).getD (atom word)

end Token

/-- A token and the byte offset of its first character. -/
structure LocatedToken where
  token : Token
  offset : Nat
deriving DecidableEq, Inhabited

end BranchingTime
