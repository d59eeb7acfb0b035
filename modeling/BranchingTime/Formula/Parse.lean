import BranchingTime.Formula
import BranchingTime.Log
import BranchingTime.Token.Scan

/-!
# BranchingTime — parsing formulas

    formula    := expression ((AND | OR | IMPLIES) formula)?
    expression := ATOM
                | NOT formula
                | "(" formula ")"
                | (AX | AF | AG | EX | EF | EG) expression
                | (E | A) "(" expression U expression ")"

Connectives chain to the right and a negation takes as much as it can:
`p AND q OR r` is `p AND (q OR r)`, and `NOT p AND q` is `NOT (p AND q)`.

The parser is a pushdown automaton that takes one token at a time. Its stack
holds the operators that wait for an operand. When an operand is complete,
the operators that cannot take the next token are closed one after the other;
closing one puts its node behind the nodes of its operands, so the nodes come
out in post-order.
-/

namespace BranchingTime

/-- The text of a formula leaves the grammar: the token `found` at byte
`position` is none of the kinds `expected` there. -/
structure ParseError where
  position : Nat
  found : Token
  expected : List Token.Kind
deriving DecidableEq, Inhabited

namespace ParseError

/-- Did the text end before the formula was complete? -/
def isUnexpectedEnd (e : ParseError) : Bool :=
  e.found = .endOfText

/-- The kinds that would have been accepted, as a message lists them. -/
def renderExpected : List Token.Kind → String
  | [] => "nothing"
  | [kind] => kind.render
  | kinds => "one of " ++ String.intercalate ", " (kinds.map Token.Kind.render)

/-- The message for a parse error. -/
def message (e : ParseError) : String :=
  "unexpected " ++ e.found.render ++ " at position " ++ toString e.position ++
    ", expected " ++ renderExpected e.expected

end ParseError

namespace Formula

-- ---------------------------------------------------------------------------
-- What may come next
-- ---------------------------------------------------------------------------

/-- The kinds of token that start an expression. -/
def expressionStart : List Token.Kind :=
  [.atom, .not, .leftParen,
   .temporal .all .next, .temporal .all .eventually, .temporal .all .always,
   .temporal .some .next, .temporal .some .eventually, .temporal .some .always,
   .quantifier .some, .quantifier .all]

/-- The kinds of the connectives. -/
def connectiveKinds : List Token.Kind :=
  [.connective .and, .connective .or, .connective .implies]

/-- What may follow a formula that is the whole text. -/
def afterFormula : List Token.Kind :=
  connectiveKinds ++ [.endOfText]

/-- What may follow a formula in parentheses. -/
def afterGrouped : List Token.Kind :=
  connectiveKinds ++ [.rightParen]

-- ---------------------------------------------------------------------------
-- The automaton
-- ---------------------------------------------------------------------------

/-- An operator that waits for its next operand. -/
inductive Frame where
  /-- `NOT _` -/
  | not
  /-- `( _ )` -/
  | group
  /-- `left op _`, where `left` is the place of the left operand. -/
  | connective (op : Connective) (left : Nat)
  /-- `AX _` and the like. -/
  | temporal (q : Quantifier) (p : PathOperator)
  /-- `E( _ U …)` or `A( _ U …)` -/
  | untlLeft (q : Quantifier)
  /-- `E(left U _ )` or `A(left U _ )` -/
  | untlRight (q : Quantifier) (left : Nat)
deriving DecidableEq

/-- What the automaton is waiting for. -/
inductive Phase where
  /-- The start of an expression. -/
  | operand
  /-- The parenthesis after a path quantifier. -/
  | opening (q : Quantifier)
  /-- Whatever may follow the expression that was just completed. -/
  | continuation
  /-- Nothing: the formula is complete. -/
  | done
deriving DecidableEq

/-- The automaton between two tokens: the nodes so far, the operators that
wait (the innermost first), and what is wanted next. -/
structure Parser where
  nodes : Array (Node Nat)
  stack : List Frame
  phase : Phase

namespace Parser

/-- The automaton before the first token. -/
def start : Parser :=
  { nodes := #[], stack := [], phase := .operand }

/-- The error that `found` is none of the kinds `expected`. -/
def unexpected (found : LocatedToken) (expected : List Token.Kind) : Except ParseError Parser :=
  .error { position := found.offset, found := found.token, expected }

/-- Opens a connective whose left operand is the expression just completed. -/
def openConnective (op : Connective) (nodes : Array (Node Nat)) (stack : List Frame) : Parser :=
  { nodes, stack := .connective op (nodes.size - 1) :: stack, phase := .operand }

/-- Takes the token after a complete operand, the last of `nodes`. Frames that
want a formula take a connective; the others, and those that see no
connective, are closed until one of them takes the token. -/
def resume (found : LocatedToken) (nodes : Array (Node Nat)) :
    List Frame → Except ParseError Parser
  | [] =>
    match found.token with
    | .connective op => .ok (openConnective op nodes [])
    | .endOfText => .ok { nodes, stack := [], phase := .done }
    | _ => unexpected found afterFormula
  | .not :: stack =>
    match found.token with
    | .connective op => .ok (openConnective op nodes (.not :: stack))
    | _ => resume found (nodes.push (.not (nodes.size - 1))) stack
  | .group :: stack =>
    match found.token with
    | .connective op => .ok (openConnective op nodes (.group :: stack))
    | .rightParen => .ok { nodes, stack, phase := .continuation }
    | _ => unexpected found afterGrouped
  | .connective op left :: stack =>
    match found.token with
    | .connective op' => .ok (openConnective op' nodes (.connective op left :: stack))
    | _ => resume found (nodes.push (.connective op left (nodes.size - 1))) stack
  | .temporal q p :: stack =>
    resume found (nodes.push (.temporal q p (nodes.size - 1))) stack
  | .untlLeft q :: stack =>
    match found.token with
    | .untl => .ok { nodes, stack := .untlRight q (nodes.size - 1) :: stack, phase := .operand }
    | _ => unexpected found [.untl]
  | .untlRight q left :: stack =>
    match found.token with
    | .rightParen =>
      .ok { nodes := nodes.push (.untl q left (nodes.size - 1)), stack, phase := .continuation }
    | _ => unexpected found [.rightParen]

/-- Takes one token. -/
def step (parser : Parser) (found : LocatedToken) : Except ParseError Parser :=
  let { nodes, stack, phase } := parser
  match phase with
  | .operand =>
    match found.token with
    | .atom name => .ok { nodes := nodes.push (.atom name), stack, phase := .continuation }
    | .not => .ok { nodes, stack := .not :: stack, phase }
    | .leftParen => .ok { nodes, stack := .group :: stack, phase }
    | .temporal q p => .ok { nodes, stack := .temporal q p :: stack, phase }
    | .quantifier q => .ok { nodes, stack, phase := .opening q }
    | _ => unexpected found expressionStart
  | .opening q =>
    match found.token with
    | .leftParen => .ok { nodes, stack := .untlLeft q :: stack, phase := .operand }
    | _ => unexpected found [.leftParen]
  | .continuation => resume found nodes stack
  | .done => .ok { nodes, stack, phase }

/-- Takes tokens one after the other, up to the first error. -/
def run (parser : Parser) : List LocatedToken → Except ParseError Parser
  | [] => .ok parser
  | found :: rest =>
    match parser.step found with
    | .ok next => run next rest
    | .error e => .error e

end Parser

/-- Parses a formula. The tokens end with the end token, so a run without an
error has read a complete formula. -/
def parse (text : String) : Except ParseError Formula :=
  (Parser.start.run (tokenize text)).map fun parser => ⟨parser.nodes⟩

/-- The records of having parsed `f`. -/
def parsedLog (f : Formula) : Log :=
  [{ level := .trace, topic := .formulas, message := s!"parsed formula with {f.size} nodes" }]

/-- The records of a parse: an error leaves none. -/
def parseLog : Except ParseError Formula → Log
  | .ok f => f.parsedLog
  | .error _ => []

end Formula

end BranchingTime
