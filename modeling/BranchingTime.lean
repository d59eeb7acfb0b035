import BranchingTime.Check.Paths
import BranchingTime.Formula.Grammar
import BranchingTime.Main
import BranchingTime.Proofs.Ascending
import BranchingTime.Proofs.BitSet
import BranchingTime.Proofs.Check.Bisimulation
import BranchingTime.Proofs.Check.Correctness
import BranchingTime.Proofs.Check.Cost
import BranchingTime.Proofs.Check.Derived
import BranchingTime.Proofs.Check.Expansion
import BranchingTime.Proofs.Check.Fixpoints
import BranchingTime.Proofs.Check.Predecessors
import BranchingTime.Proofs.Check.Reachability
import BranchingTime.Proofs.Command.Sessions
import BranchingTime.Proofs.Formula.Arena
import BranchingTime.Proofs.Formula.Automaton
import BranchingTime.Proofs.Formula.Descent
import BranchingTime.Proofs.Formula.Language
import BranchingTime.Proofs.Formula.Layout
import BranchingTime.Proofs.Formula.Printing
import BranchingTime.Proofs.Formula.RoundTrip
import BranchingTime.Proofs.Ident
import BranchingTime.Proofs.Model.Building
import BranchingTime.Proofs.Model.Calls
import BranchingTime.Proofs.Model.Finished
import BranchingTime.Proofs.Model.Printing
import BranchingTime.Proofs.Model.Reading
import BranchingTime.Proofs.Model.RoundTrip
import BranchingTime.Proofs.Result
import BranchingTime.Proofs.StateSet
import BranchingTime.Proofs.Suite.Verdicts
import BranchingTime.Proofs.Text.Splitting
import BranchingTime.Proofs.Token.Scanning
import BranchingTime.Proofs.Model.Language
import BranchingTime.Proofs.Formula.Prefixes
import BranchingTime.Proofs.Formula.Errors
import BranchingTime.Proofs.Model.Order
import BranchingTime.Proofs.Check.Absorption
import BranchingTime.Proofs.Check.Monotonicity
import BranchingTime.Proofs.Check.Transfer
import BranchingTime.Proofs.Programs
import BranchingTime.Proofs.StateSet.Programs
import BranchingTime.Proofs.Token.Lexing
import BranchingTime.Proofs.Model.Declared
import BranchingTime.Proofs.FirstFault
import BranchingTime.Proofs.Report
import BranchingTime.Proofs.Model.Layouts
import BranchingTime.Proofs.Suite.RoundTrip
import BranchingTime.Dot
import BranchingTime.Proofs.Dot
import BranchingTime.Proofs.Drawing
import BranchingTime.Proofs.Formula.Parentheses
import BranchingTime.Proofs.Check.Layers
import BranchingTime.Proofs.Command.Checking
