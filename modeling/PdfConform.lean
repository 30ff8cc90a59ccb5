import PdfConform.Main
import PdfConform.Proofs.Document.Encoding
import PdfConform.Proofs.Document.Histories
import PdfConform.Proofs.Schema.View
import PdfConform.Proofs.Check.Step
import PdfConform.Proofs.Check.Choice
import PdfConform.Proofs.Check.Lead
import PdfConform.Proofs.Check.LeadTrace
import PdfConform.Proofs.Check.TreeStep
import PdfConform.Proofs.Check.RunStep
import PdfConform.Proofs.Check.Ledger
import PdfConform.Proofs.Check.Accounting
import PdfConform.Proofs.Check.CleanRun
import PdfConform.Proofs.Check.TreeVisits
import PdfConform.Proofs.Check.TreeNode
import PdfConform.Proofs.Check.TreeWalk
import PdfConform.Proofs.Check.Names
import PdfConform.Proofs.Check.Potential
import PdfConform.Proofs.Check.Runs
import PdfConform.Proofs.Check.Termination
import PdfConform.Proofs.Check.Congruence
import PdfConform.Proofs.Check.Simulation
import PdfConform.Proofs.Check.WarmCache
import PdfConform.Proofs.Check.Budget
import PdfConform.Proofs.Check.Work
import PdfConform.Proofs.Check.Closure
import PdfConform.Proofs.Check.SeedOrder
import PdfConform.Proofs.Check.Depth
import PdfConform.Proofs.Check.Unlocated
import PdfConform.Proofs.Check.NullEntry
import PdfConform.Proofs.Check.Layout
import PdfConform.Proofs.Check.Ways
import PdfConform.Proofs.Check.TreeGather
import PdfConform.Proofs.Check.TreeOrder
import PdfConform.Proofs.Check.Discriminator
import PdfConform.Proofs.Check.Echo
import PdfConform.Proofs.Check.Recheck
import PdfConform.Proofs.Check.ListedName
import PdfConform.Proofs.Check.BestFit
import PdfConform.Proofs.Check.Repeats
import PdfConform.Proofs.Check.TreeTour
import PdfConform.Proofs.Check.TreeViolations
import PdfConform.Proofs.Check.Shadow
import PdfConform.Proofs.Json.Lexeme
import PdfConform.Proofs.Json.Written
import PdfConform.Proofs.Document.Dumped
import PdfConform.Proofs.Schema.Faultless
import PdfConform.Proofs.Schema.History
import PdfConform.Proofs.Check.Tables
import PdfConform.Proofs.Check.Discovery
import PdfConform.Proofs.Schema.Listing
import PdfConform.Proofs.Check.CleanFolder
import PdfConform.Proofs.Expression.Scan
import PdfConform.Proofs.Expression.Derivation
import PdfConform.Proofs.Expression.Condition
import PdfConform.Proofs.Expression.ConditionText
import PdfConform.Proofs.Number.Rounding
import PdfConform.Proofs.Number.ShortestDigits
import PdfConform.Proofs.Number.ShownReal
import PdfConform.Proofs.Expression.Canonical
import PdfConform.Proofs.Report.Replies
import PdfConform.Proofs.Report.FailingWriter
import PdfConform.Proofs.Report.Lines
import PdfConform.Proofs.Report.Decoding
import PdfConform.Proofs.Document.Chain
import PdfConform.Proofs.Schema.Rectangle
import PdfConform.Proofs.Number.Integers
import PdfConform.Proofs.Check.IntegerValues
import PdfConform.Proofs.Check.Refusal
import PdfConform.Proofs.Expression.ItemGrammar
import PdfConform.Proofs.Schema.Lines
import PdfConform.Proofs.Schema.LineEnds
import PdfConform.Proofs.Schema.Verdict
import PdfConform.Proofs.Check.Agreement
import PdfConform.Proofs.Check.Indirection
import PdfConform.Proofs.Document.DateDigits
import PdfConform.Proofs.Document.DateForm
import PdfConform.Proofs.Expression.Spelling
import PdfConform.Proofs.Expression.Progress
import PdfConform.Proofs.Schema.Segments
import PdfConform.Proofs.Check.Shadow
import PdfConform.Proofs.Expression.Progress
