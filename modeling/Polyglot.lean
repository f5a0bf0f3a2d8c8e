import Polyglot.Chart
import Polyglot.Chart.Basic
import Polyglot.Chart.Building
import Polyglot.Chart.Readings
import Polyglot.Choice
import Polyglot.Counters
import Polyglot.Decision
import Polyglot.Expr.Cursor
import Polyglot.Expr.Printer
import Polyglot.Expr.Reader
import Polyglot.Generation.Derivation
import Polyglot.Generation.Index
import Polyglot.Generation.Linearization
import Polyglot.Grammar.Validation
import Polyglot.ParseState
import Polyglot.Rendition
import Polyglot.Rendition.InTurn
import Polyglot.Search
import Polyglot.Text.Quoted
import Polyglot.Proofs.Chart.Goals
import Polyglot.Proofs.Chart.Rearranged
import Polyglot.Proofs.Chart.Termination
import Polyglot.Proofs.Rounds
import Polyglot.Proofs.Generation.Linearization
import Polyglot.Proofs.Generation.Signatures
import Polyglot.Proofs.Generation.Ways
import Polyglot.Proofs.Grammar.Acceptance
import Polyglot.Proofs.Grammar.Recorded
import Polyglot.Proofs.DerivationRoundtrip
import Polyglot.Proofs.Expr.Cursor
import Polyglot.Proofs.ExprRoundtrip
import Polyglot.Proofs.Rendition.Exactness
import Polyglot.Proofs.TextRoundtrip
import Polyglot.Proofs.Session.Counting
import Polyglot.Proofs.Session.FirstResult
import Polyglot.Proofs.Session.Interning
import Polyglot.Proofs.Session.Meeting
import Polyglot.Proofs.Session.Persistence
import Polyglot.Proofs.Session.Safety
