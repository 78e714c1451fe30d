import DdlDiagram.Main
import DdlDiagram.Proofs.Coherence
import DdlDiagram.Proofs.Pairing
import DdlDiagram.Proofs.Stripping
import DdlDiagram.Proofs.BodyCut
import DdlDiagram.Proofs.RoundTrip
import DdlDiagram.Proofs.ReaderAgreement
import DdlDiagram.Proofs.HeaderReading
import DdlDiagram.Proofs.Locality
import DdlDiagram.Proofs.Terminating
import DdlDiagram.Proofs.HeaderApart
import DdlDiagram.Proofs.Accounting
import DdlDiagram.Proofs.ByteIndex
import DdlDiagram.Proofs.Slicing
import DdlDiagram.Proofs.Unquoting
import DdlDiagram.Proofs.Repeating
import DdlDiagram.Proofs.LiteralContents
import DdlDiagram.Proofs.CapitalClause
import DdlDiagram.Proofs.Backslash
import DdlDiagram.Proofs.Drawing
import DdlDiagram.Proofs.RunOutcome
import DdlDiagram.Proofs.DebugBudget
import DdlDiagram.Proofs.QuoteRemoval
import DdlDiagram.Proofs.DiagramShape
import DdlDiagram.Proofs.ReportReading
import DdlDiagram.Proofs.IndexClause
import DdlDiagram.Proofs.KeyClause
import DdlDiagram.Proofs.ReferenceClause
import DdlDiagram.Proofs.BodyAccount
import DdlDiagram.Proofs.History
import DdlDiagram.Proofs.Splitting
import DdlDiagram.Proofs.Uncommenting
import DdlDiagram.Proofs.OptionRemoval
