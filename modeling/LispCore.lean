import LispCore.Analysis
import LispCore.Arity
import LispCore.Binary64
import LispCore.Binding
import LispCore.Code
import LispCore.Code.Emit
import LispCore.Code.Machine
import LispCore.Decimal
import LispCore.Error
import LispCore.Eval
import LispCore.Expr
import LispCore.Form
import LispCore.Log
import LispCore.Monitor
import LispCore.Namespace
import LispCore.Native
import LispCore.Native.Standard
import LispCore.Options
import LispCore.Proofs.Acceptance
import LispCore.Proofs.Analysis
import LispCore.Proofs.Calls
import LispCore.Proofs.Cells
import LispCore.Proofs.Definitions
import LispCore.Proofs.Emission
import LispCore.Proofs.Engines
import LispCore.Proofs.Exec
import LispCore.Proofs.Grammar
import LispCore.Proofs.Growth
import LispCore.Proofs.Inert
import LispCore.Proofs.Isolation
import LispCore.Proofs.Machine
import LispCore.Proofs.Names
import LispCore.Proofs.Nodes
import LispCore.Proofs.Openings
import LispCore.Proofs.Residue
import LispCore.Proofs.Runs
import LispCore.Proofs.Sessions
import LispCore.Session
import LispCore.Span
import LispCore.Table
import LispCore.Text
import LispCore.Value
import LispCore.Value.Canonical
import LispCore.Value.OfForm
import LispCore.Value.Printer
import LispCore.World
import LispCore.Proofs.Overrides
import LispCore.Proofs.Lifetimes
import LispCore.Proofs.Interning
import LispCore.Proofs.Equality
import LispCore.Proofs.Monitors
import LispCore.Proofs.Qualifiers
import LispCore.Proofs.Kinds
import LispCore.Proofs.Literals
import LispCore.Proofs.Metadata
import LispCore.Proofs.Recasting
import LispCore.Proofs.Traversal
import LispCore.Proofs.Repetition
import LispCore.Proofs.Warnings
import LispCore.Proofs.Collections
import LispCore.Proofs.ProperWorlds
import LispCore.Proofs.ProperSessions
import LispCore.Proofs.Spelling
import LispCore.Proofs.Blame
import LispCore.Proofs.Halting
import LispCore.Proofs.Provenance
import LispCore.Proofs.Reports
import LispCore.Proofs.Generators
