import ScopeLowering.Files.Edit
import ScopeLowering.Main
import ScopeLowering.Proofs.CommandLine.ExitCode
import ScopeLowering.Proofs.CommandLine.Overriding
import ScopeLowering.Proofs.CommandLine.Refeeding
import ScopeLowering.Proofs.Files.Above
import ScopeLowering.Proofs.Files.Below
import ScopeLowering.Proofs.Files.Contents
import ScopeLowering.Proofs.Files.Growth
import ScopeLowering.Proofs.Files.Redaction
import ScopeLowering.Proofs.Files.Remaking
import ScopeLowering.Proofs.Files.Respelling
import ScopeLowering.Proofs.Files.Twins
import ScopeLowering.Proofs.Glob.Spelling
import ScopeLowering.Proofs.Output.Deposit
import ScopeLowering.Proofs.Output.OwnSource
import ScopeLowering.Proofs.Path.Order
import ScopeLowering.Proofs.Session.Accounting
import ScopeLowering.Proofs.Session.Footprint
import ScopeLowering.Proofs.Session.Intake
import ScopeLowering.Proofs.Session.Journal
import ScopeLowering.Proofs.Session.Memory
import ScopeLowering.Proofs.Session.Ownership
import ScopeLowering.Proofs.Session.Repetition
import ScopeLowering.Proofs.Session.Splitting
import ScopeLowering.Proofs.Session.Success
import ScopeLowering.Proofs.Session.Twins
import ScopeLowering.Proofs.Settings.Encoding
import ScopeLowering.Proofs.Source.Exactness
import ScopeLowering.Proofs.Source.Finding
import ScopeLowering.Proofs.Source.Redaction
import ScopeLowering.Proofs.Stylesheet.BlockSearch
import ScopeLowering.Proofs.Stylesheet.CommaCuts
import ScopeLowering.Proofs.Stylesheet.Commas
import ScopeLowering.Proofs.Stylesheet.Comment
import ScopeLowering.Proofs.Stylesheet.Commented
import ScopeLowering.Proofs.Stylesheet.Continuation
import ScopeLowering.Proofs.Stylesheet.Counting
import ScopeLowering.Proofs.Stylesheet.Enclosure
import ScopeLowering.Proofs.Stylesheet.Header
import ScopeLowering.Proofs.Stylesheet.LongerNames
import ScopeLowering.Proofs.Stylesheet.Nesting
import ScopeLowering.Proofs.Stylesheet.Offsets
import ScopeLowering.Proofs.Stylesheet.Outline
import ScopeLowering.Proofs.Stylesheet.Placeholder
import ScopeLowering.Proofs.Stylesheet.QuotedHeads
import ScopeLowering.Proofs.Stylesheet.ReadBack
import ScopeLowering.Proofs.Stylesheet.RootList
import ScopeLowering.Proofs.Stylesheet.Rooting
import ScopeLowering.Proofs.Stylesheet.Segments
import ScopeLowering.Proofs.Stylesheet.Separation
import ScopeLowering.Proofs.Stylesheet.SinglePass
import ScopeLowering.Proofs.Stylesheet.Substitution
import ScopeLowering.Proofs.Stylesheet.Surroundings
import ScopeLowering.Proofs.Text.Matching
import ScopeLowering.Proofs.Watcher.Deletion
import ScopeLowering.Proofs.Watcher.Round
import ScopeLowering.Proofs.Watcher.Run
