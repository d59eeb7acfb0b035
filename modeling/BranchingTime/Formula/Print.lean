import BranchingTime.Formula

/-!
# BranchingTime — printing formulas

The printed form reads back as the same formula. Where the grammar takes a
single expression (left of a connective, under a temporal operator, inside an
until) a negation or a connective is put in parentheses, and so is a
connective right under a negation; nothing else is. The right operand of a
connective stays bare because connectives chain to the right.

Printing goes through a stack of items still to be written, so depth costs
memory only. What a node starts with is written as soon as the node is taken
off the stack; its operands, and what stands between and behind them, are put
on the stack, last things first.
-/

namespace BranchingTime.Formula

/-- Something still to be written. -/
inductive Item where
  /-- The node at a place; `operand` tells that a single expression is wanted. -/
  | node (place : Nat) (operand : Bool)
  | text (s : String)
deriving DecidableEq

/-- A printer at work: what it has written, and the items still to be written,
the next one first. -/
structure Printer where
  written : String
  stack : List Item
deriving DecidableEq

namespace Printer

/-- Writes a text at once. -/
def write (p : Printer) (s : String) : Printer :=
  { p with written := p.written ++ s }

/-- Puts an item on the stack. -/
def push (p : Printer) (item : Item) : Printer :=
  { p with stack := item :: p.stack }

/-- Opens a parenthesis, if one is needed, and puts its end on the stack. -/
def openGroup (p : Printer) (isNeeded : Bool) : Printer :=
  if isNeeded then (p.write "(").push (.text ")") else p

/-- Writes what a node starts with, and puts the rest of it on the stack. -/
def enter (f : Formula) (p : Printer) : Node Nat → Printer
  | .atom name => p.write name
  | .not a => ((p.write "NOT ").openGroup (f.node a).isConnective).push (.node a false)
  | .connective op a b =>
    ((p.push (.node b false)).push (.text (" " ++ op.keyword ++ " "))).push (.node a true)
  | .temporal q o a => ((p.write (temporalKeyword q o)).write " ").push (.node a true)
  | .untl q a b =>
    ((((p.write (q.keyword ++ "(")).push (.text ")")).push (.node b true)).push
      (.text " U ")).push (.node a true)

/-- Takes one item off the stack and deals with it, if there is one. -/
def step? (f : Formula) (p : Printer) : Option Printer :=
  match p.stack with
  | [] => none
  | .text s :: stack => some (write { p with stack } s)
  | .node place operand :: stack =>
    let node := f.node place
    some ((openGroup { p with stack } (operand && (node.isConnective || node.isNot))).enter f node)

/-- Takes steps until the stack is empty, at most `fuel` of them. -/
def run (f : Formula) : (fuel : Nat) → Printer → Printer
  | 0, p => p
  | fuel + 1, p =>
    match p.step? f with
    | none => p
    | some next => run f fuel next

/-- The printer that has the whole formula before it. -/
def start (f : Formula) : Printer :=
  { written := "", stack := [.node f.root false] }

end Printer

/-- The text of a formula. A node takes one step, and puts at most two texts on
the stack, which take one step each. -/
def render (f : Formula) : String :=
  (Printer.run f (3 * f.size) (Printer.start f)).written

end BranchingTime.Formula
