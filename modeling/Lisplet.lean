import Lisplet.Eval
import Lisplet.Host
import Lisplet.Symbol.Interner
import Lisplet.Proofs.Answer
import Lisplet.Proofs.Staged
import Lisplet.Proofs.Law
import Lisplet.Proofs.Record
import Lisplet.Proofs.Frame
import Lisplet.Proofs.Agreement
import Lisplet.Proofs.Confinement
import Lisplet.Proofs.Unmarked
import Lisplet.Proofs.Report
import Lisplet.Proofs.Pipeline
import Lisplet.Proofs.Loop
import Lisplet.Proofs.Code
import Lisplet.Proofs.Budget
import Lisplet.Proofs.Split
import Lisplet.Proofs.Termination
import Lisplet.Proofs.Rounding
import Lisplet.Proofs.Equality
import Lisplet.Proofs.WholeNumber
import Lisplet.Proofs.Transparency
import Lisplet.Proofs.Conversion
import Lisplet.Proofs.PrintLength
import Lisplet.Proofs.Readability
import Lisplet.Proofs.Target
import Lisplet.Proofs.Representation
import Lisplet.Proofs.Runs
import Lisplet.Proofs.Rows
import Lisplet.Proofs.Operands
import Lisplet.Proofs.Filter
import Lisplet.Proofs.Fold
import Lisplet.Proofs.Unrolling
import Lisplet.Proofs.Clauses
import Lisplet.Proofs.Threading
import Lisplet.Proofs.Progression
import Lisplet.Proofs.Walk
import Lisplet.Proofs.Validation
import Lisplet.Proofs.Concatenation
import Lisplet.Proofs.Interning
import Lisplet.Proofs.Literals
import Lisplet.Proofs.Capability
