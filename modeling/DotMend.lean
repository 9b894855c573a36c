import DotMend.Files.Tree
import DotMend.Main
import DotMend.Proofs.Action.Candidates
import DotMend.Proofs.Action.EditorEdits
import DotMend.Proofs.Action.Offers
import DotMend.Proofs.Action.OperatorFixes
import DotMend.Proofs.Action.Repetition
import DotMend.Proofs.Command.Conversion
import DotMend.Proofs.Command.MergedEdges
import DotMend.Proofs.Command.MergedText
import DotMend.Proofs.Command.MergedTokens
import DotMend.Proofs.Command.OperatorReplay
import DotMend.Proofs.Command.Routes
import DotMend.Proofs.Command.StaleConsolidation
import DotMend.Proofs.Command.StaleOperators
import DotMend.Proofs.Parse.JoinedStrings
import DotMend.Proofs.Source.Guarded
import DotMend.Proofs.Source.Marks
import DotMend.Proofs.Source.Paths
import DotMend.Proofs.Text.Lines
import DotMend.Proofs.Text.Simultaneous
import DotMend.Proofs.Token.Partition
import DotMend.Session
import DotMend.Proofs.Source.Lookup
import DotMend.Proofs.Command.Guarded
import DotMend.Proofs.Token.Classes
import DotMend.Proofs.Token.Quoting
import DotMend.Proofs.Token.Faults
import DotMend.Proofs.Source.Diagnostics
import DotMend.Proofs.Diff.Patch
import DotMend.Proofs.Parse.Indifference
import DotMend.Proofs.Parse.Progress
import DotMend.Proofs.Source.Visits
import DotMend.Proofs.Source.Width
import DotMend.Proofs.Token.Restarting
