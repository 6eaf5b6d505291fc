import Antecedent.Number.Binary64
import Antecedent.Text.CharClass
import Antecedent.Text.Quoted
import Antecedent.Text.Integer
import Antecedent.Json.Reader
import Antecedent.Json.Writer
import Antecedent.Term.Basic
import Antecedent.Term.Text
import Antecedent.Term.Subst
import Antecedent.Arch
import Antecedent.Program.Operator
import Antecedent.Program.Decode
import Antecedent.Program.Encode
import Antecedent.Program.Text
import Antecedent.Term.Build
import Antecedent.Constraint.Basic
import Antecedent.Constraint.Refute
import Antecedent.Program.Symbolic
import Antecedent.Smtlib.Builtin
import Antecedent.Hypotheses
import Antecedent.Report
import Antecedent.Comparison
import Antecedent.Options.Basic
import Antecedent.Pattern.Reader
import Antecedent.Analysis.Setup
import Antecedent.Decide.Solve
import Antecedent.Service
import Antecedent.Proofs.Agreement
import Antecedent.Proofs.Freshening
import Antecedent.Proofs.Healthiness
import Antecedent.Proofs.Inlining
import Antecedent.Proofs.Polarity
import Antecedent.Proofs.Postorder
import Antecedent.Proofs.Refutation
import Antecedent.Proofs.Termination
import Antecedent.Proofs.Verdict
import Antecedent.Proofs.Reflexivity
import Antecedent.Proofs.NullAccess
import Antecedent.Proofs.Scope
import Antecedent.Proofs.Callees
import Antecedent.Proofs.Dependence
import Antecedent.Proofs.Summarising
import Antecedent.Proofs.Unknowns
import Antecedent.Proofs.Tracing
import Antecedent.Proofs.CalledNames
import Antecedent.Proofs.Documents
import Antecedent.Proofs.SortedDocuments
import Antecedent.Proofs.Caching
import Antecedent.Proofs.Paths
import Antecedent.Proofs.Equivariance
import Antecedent.Proofs.StackBounds
import Antecedent.Proofs.Bytes
import Antecedent.Proofs.Accounting
import Antecedent.Proofs.Shifts
import Antecedent.Proofs.Correlation
import Antecedent.Proofs.Replay
import Antecedent.Proofs.Loading
import Antecedent.Proofs.Cycles
import Antecedent.Proofs.Draws
import Antecedent.Proofs.MalformedFlow
import Antecedent.Proofs.Nesting
