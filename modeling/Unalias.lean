import Unalias.Files.Disk
import Unalias.Main
import Unalias.Proofs.Files.Outline
import Unalias.Proofs.Path.Pieces
import Unalias.Proofs.Files.Operations
import Unalias.Proofs.Files.Tree
import Unalias.Proofs.Reference.Verdict
import Unalias.Proofs.Report.Recorded
import Unalias.Proofs.Run.Commit
import Unalias.Proofs.Run.Runner
import Unalias.Proofs.Run.Sequential
import Unalias.Proofs.Run.Agreement
import Unalias.Proofs.Reference.Segments
import Unalias.Proofs.Reference.Stability
import Unalias.Proofs.Run.SecondRun
import Unalias.Proofs.Config.Merge
import Unalias.Proofs.Run.Preview
import Unalias.Proofs.Config.Circular
import Unalias.Proofs.Config.Grammar
import Unalias.Proofs.Config.Strict
import Unalias.Proofs.Run.Course
import Unalias.Proofs.Run.SingleFlight
import Unalias.Proofs.Path.Steps
import Unalias.Proofs.Path.Way
import Unalias.Proofs.Path.Folding
import Unalias.Proofs.Path.Shortest
import Unalias.Proofs.Reference.Matching
import Unalias.Proofs.Reference.Containment
import Unalias.Proofs.Reference.Resolution
import Unalias.Proofs.Reference.Positions
import Unalias.Proofs.Reference.Search
import Unalias.Proofs.Reference.Frame
import Unalias.Proofs.Reference.Mentions
import Unalias.Proofs.Reference.ReadBack
import Unalias.Proofs.Run.InFlight
import Unalias.Proofs.Config.Parts
import Unalias.Proofs.Config.Table
import Unalias.Proofs.Reference.Mirror
import Unalias.Proofs.Files.Scanning
import Unalias.Proofs.Settings.Fields
import Unalias.Proofs.Settings.Layers
import Unalias.Proofs.Json.Printed
import Unalias.Proofs.Json.RoundTrip
import Unalias.Proofs.Report.Rendering
import Unalias.Proofs.Report.Totals
