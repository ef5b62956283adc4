import EditList.Main
import EditList.Proofs.Binary64.Exact
import EditList.Proofs.Except
import EditList.Proofs.Time
import EditList.Proofs.Graph.Walk
import EditList.Proofs.Graph.GapWalk
import EditList.Proofs.Graph.Labels
import EditList.Proofs.Graph.Statement
import EditList.Proofs.Graph.Expression
import EditList.Proofs.Graph.Timeline
import EditList.Proofs.Spacing
import EditList.Proofs.Hundredths
import EditList.Proofs.Graph.Playback
import EditList.Proofs.PrintedGraph
import EditList.Proofs.Text
import EditList.Proofs.Token
import EditList.Proofs.Reason
import EditList.Proofs.WrittenLine
import EditList.Proofs.Token.Place
import EditList.Proofs.Token.Split
import EditList.Proofs.Action.Lines
import EditList.Proofs.Text.Lines
import EditList.Proofs.Renumber
import EditList.Proofs.FaultPlace
import EditList.Proofs.Token.Extent
import EditList.Proofs.GivenTimes
import EditList.Proofs.LineDeletion
import EditList.Proofs.Precedence
import EditList.Proofs.PrintedLength
import EditList.Proofs.Layout
import EditList.Proofs.JoinedTexts
import EditList.Proofs.FileTree
import EditList.Proofs.Host
import EditList.Proofs.Job
import EditList.Proofs.SameEntry
import EditList.Proofs.Action.Runs
import EditList.Proofs.Binary64.Error
import EditList.Proofs.Decimal
import EditList.Proofs.ExactOffset
import EditList.Proofs.Threshold
import EditList.Proofs.Binary64.Grid
import EditList.Proofs.Binary64.Nearest
import EditList.Proofs.Decimal.Grammar
import EditList.Proofs.Time.Grammar
import EditList.Proofs.Decimal.TwoPlaces
import EditList.Proofs.Time.Display
import EditList.Proofs.FiniteSpacing
import EditList.Proofs.WrittenReason
