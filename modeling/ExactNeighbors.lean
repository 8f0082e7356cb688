import ExactNeighbors.Binary.Format
import ExactNeighbors.Binary.Round
import ExactNeighbors.Binary.Arithmetic
import ExactNeighbors.Binary.Order
import ExactNeighbors.Decimal.Digit
import ExactNeighbors.Decimal.Basic
import ExactNeighbors.Decimal.Shortest
import ExactNeighbors.Decimal.Plain
import ExactNeighbors.Error
import ExactNeighbors.Json.Numeral
import ExactNeighbors.Json.Quoted
import ExactNeighbors.Json.Token
import ExactNeighbors.Json.Value
import ExactNeighbors.Json.Reader
import ExactNeighbors.Json.Shape
import ExactNeighbors.Point.LaneSum
import ExactNeighbors.Point.Basic
import ExactNeighbors.Point.Checked
import ExactNeighbors.Point.Stored
import ExactNeighbors.Metric
import ExactNeighbors.Ranking.Neighbor
import ExactNeighbors.Ranking.Nearest
import ExactNeighbors.Ranking.Radius
import ExactNeighbors.Ranking.PerLabel
import ExactNeighbors.Ranking.Batches
import ExactNeighbors.Ranking.Stored
import ExactNeighbors.Storage.Size
import ExactNeighbors.Storage.Block
import ExactNeighbors.Storage.Store
import ExactNeighbors.Index.Settings
import ExactNeighbors.Index.Scan
import ExactNeighbors.Index.Machine
import ExactNeighbors.Index.Basic
import ExactNeighbors.Proofs.Binary.Order
import ExactNeighbors.Proofs.Binary.Grid
import ExactNeighbors.Proofs.Binary.Round
import ExactNeighbors.Proofs.Binary.Value
import ExactNeighbors.Proofs.Binary.Arithmetic
import ExactNeighbors.Proofs.Binary.Exact
import ExactNeighbors.Proofs.Binary.Sums
import ExactNeighbors.Proofs.Binary.Sign
import ExactNeighbors.Proofs.Binary.Whole
import ExactNeighbors.Proofs.Binary.Scaling
import ExactNeighbors.Proofs.Binary.Error
import ExactNeighbors.Proofs.Binary.Relative
import ExactNeighbors.Proofs.Decimal.Shortest
import ExactNeighbors.Proofs.Decimal.CloseCalls
import ExactNeighbors.Proofs.Decimal.Reading
import ExactNeighbors.Proofs.Decimal.RoundTrip
import ExactNeighbors.Proofs.Json.Token
import ExactNeighbors.Proofs.Json.Text
import ExactNeighbors.Proofs.Json.Shape
import ExactNeighbors.Proofs.Json.Members
import ExactNeighbors.Proofs.Json.Component
import ExactNeighbors.Proofs.Ranking.Rank
import ExactNeighbors.Proofs.Ranking.Resorting
import ExactNeighbors.Proofs.Ranking.Nearest
import ExactNeighbors.Proofs.Ranking.Radius
import ExactNeighbors.Proofs.Ranking.Serving
import ExactNeighbors.Proofs.Ranking.Phase
import ExactNeighbors.Proofs.Ranking.Draining
import ExactNeighbors.Proofs.Ranking.Stored
import ExactNeighbors.Proofs.Storage.Block
import ExactNeighbors.Proofs.Storage.Reservation
import ExactNeighbors.Proofs.Storage.Contents
import ExactNeighbors.Proofs.Storage.InPlace
import ExactNeighbors.Proofs.Storage.Writes
import ExactNeighbors.Proofs.Storage.Lookup
import ExactNeighbors.Proofs.Storage.Layout
import ExactNeighbors.Proofs.Storage.Addressing
import ExactNeighbors.Proofs.Point.LaneSum
import ExactNeighbors.Proofs.Point.Normalize
import ExactNeighbors.Proofs.Point.Zero
import ExactNeighbors.Proofs.Point.Summation
import ExactNeighbors.Proofs.Point.Whole
import ExactNeighbors.Proofs.Point.Scaling
import ExactNeighbors.Proofs.Point.Accuracy
import ExactNeighbors.Proofs.Index.Least
import ExactNeighbors.Proofs.Index.PerLabel
import ExactNeighbors.Proofs.Index.History
import ExactNeighbors.Proofs.Index.Adding
import ExactNeighbors.Proofs.Index.Contents
import ExactNeighbors.Proofs.Index.Scan
import ExactNeighbors.Proofs.Index.Pieces
import ExactNeighbors.Proofs.Index.Store
import ExactNeighbors.Proofs.Index.Creating
import ExactNeighbors.Proofs.Index.Answers
import ExactNeighbors.Proofs.Index.FirstMet
import ExactNeighbors.Proofs.Index.Distance
import ExactNeighbors.Proofs.Index.InsertionOrder
import ExactNeighbors.Proofs.Index.Hints
import ExactNeighbors.Proofs.Index.Settings
import ExactNeighbors.Proofs.Index.Members
import ExactNeighbors.Proofs.Index.Radius
import ExactNeighbors.Proofs.Index.Reported
import ExactNeighbors.Proofs.Index.Cosine
import ExactNeighbors.Proofs.Index.Itself
import ExactNeighbors.Proofs.Index.Symmetry
import ExactNeighbors.Proofs.Index.Scaling
import ExactNeighbors.Proofs.Index.Stored
