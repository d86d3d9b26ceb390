import Orthtree.Location.Frame
import Orthtree.Snapshot.Conversion
import Orthtree.Stencil.Basic
import Orthtree.Tree.Balance
import Orthtree.Tree.Relocation
import Orthtree.Tree.Uniform
import Orthtree.Proofs.Invariant
import Orthtree.Proofs.Queries
import Orthtree.Proofs.Renumbering
import Orthtree.Proofs.Counters
import Orthtree.Proofs.Exchange
import Orthtree.Proofs.Swapping
import Orthtree.Proofs.Refining
import Orthtree.Proofs.DepthFirst
import Orthtree.Proofs.Loading
import Orthtree.Proofs.Sorting
import Orthtree.Proofs.Canonical
import Orthtree.Proofs.Histories
import Orthtree.Proofs.Relocating
import Orthtree.Proofs.Cells
import Orthtree.Proofs.Boxes
import Orthtree.Proofs.Offsets
import Orthtree.Proofs.Places
import Orthtree.Proofs.Neighbors
import Orthtree.Proofs.Balancing
import Orthtree.Proofs.BalancedCoarsening
import Orthtree.Proofs.Restoring
import Orthtree.Proofs.RoundTrip
import Orthtree.Proofs.Growing
import Orthtree.Proofs.Points
import Orthtree.Proofs.Alike
import Orthtree.Proofs.Layouts
import Orthtree.Proofs.Locating
import Orthtree.Proofs.Adjacency
import Orthtree.Proofs.Refusals
import Orthtree.Proofs.Equality
import Orthtree.Proofs.Packing
import Orthtree.Proofs.Coordinates
import Orthtree.Proofs.Undoing
import Orthtree.Proofs.Resorting
import Orthtree.Proofs.Opposites
import Orthtree.Proofs.Surroundings
import Orthtree.Proofs.Commuting
import Orthtree.Proofs.Visiting
import Orthtree.Proofs.Listing
import Orthtree.Proofs.Totality
import Orthtree.Proofs.BreadthFirst
import Orthtree.Proofs.CurveOrder
import Orthtree.Proofs.Compactness
import Orthtree.Proofs.BothEnds
import Orthtree.Proofs.Rounding
import Orthtree.Proofs.OffsetCounts
