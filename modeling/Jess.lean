import Jess.Command
import Jess.Main
import Jess.Proofs.Acceptance
import Jess.Proofs.Activations
import Jess.Proofs.Advancing
import Jess.Proofs.Bindings
import Jess.Proofs.Blame
import Jess.Proofs.Boundaries
import Jess.Proofs.Calls
import Jess.Proofs.Concatenation
import Jess.Proofs.Desugaring
import Jess.Proofs.Dismissal
import Jess.Proofs.EarliestMistake
import Jess.Proofs.Elsewhere
import Jess.Proofs.Encapsulation
import Jess.Proofs.Environments
import Jess.Proofs.Equality
import Jess.Proofs.ExpressionLocality
import Jess.Proofs.ExpressionRoundTrip
import Jess.Proofs.Filing
import Jess.Proofs.Holdings
import Jess.Proofs.Identities
import Jess.Proofs.Layout
import Jess.Proofs.Lenience
import Jess.Proofs.Limits
import Jess.Proofs.LispForms
import Jess.Proofs.Modes
import Jess.Proofs.Names
import Jess.Proofs.NumberLiterals
import Jess.Proofs.Numeral
import Jess.Proofs.Onward
import Jess.Proofs.Parts
import Jess.Proofs.Passing
import Jess.Proofs.Placement
import Jess.Proofs.ProgramRoundTrip
import Jess.Proofs.Progress
import Jess.Proofs.Records
import Jess.Proofs.Restoration
import Jess.Proofs.Resumption
import Jess.Proofs.Returns
import Jess.Proofs.Rounding
import Jess.Proofs.Seams
import Jess.Proofs.StatementLocality
import Jess.Proofs.Traces
import Jess.Proofs.Unended
import Jess.Tree.Canonical
import Jess.Tree.Lisp
import Jess.Value.Listing
import Jess.Proofs.Processes
import Jess.Proofs.Files
