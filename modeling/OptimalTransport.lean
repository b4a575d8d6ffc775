import OptimalTransport.Bounded
import OptimalTransport.Decimal.Layout
import OptimalTransport.Document.Codec
import OptimalTransport.Document.Reader
import OptimalTransport.Document.Writer
import OptimalTransport.Scalar.Binary64
import OptimalTransport.Proofs.Exact
import OptimalTransport.SpanningTree.Numbered
import OptimalTransport.Proofs.Fault
import OptimalTransport.Proofs.Tree.Climb
import OptimalTransport.Proofs.Tree.WellFormed
import OptimalTransport.Proofs.Tree.Subtree
import OptimalTransport.Proofs.Tree.Exchange
import OptimalTransport.Proofs.Tree.Relabel
import OptimalTransport.Proofs.Tree.Graph
import OptimalTransport.Proofs.Simplex.Sound
import OptimalTransport.Proofs.Simplex.Entering
import OptimalTransport.Proofs.Pricing.Countdown
import OptimalTransport.Proofs.Simplex.Reachable
import OptimalTransport.Proofs.Simplex.Faultless
import OptimalTransport.Proofs.Simplex.Budget
import OptimalTransport.Proofs.Ordered
import OptimalTransport.Proofs.Least
import OptimalTransport.Proofs.Pricing.Potential
import OptimalTransport.Proofs.Pricing.CycleCost
import OptimalTransport.Proofs.Pricing.Blocks
import OptimalTransport.Proofs.Simplex.Leaving
import OptimalTransport.Proofs.Flow.Walk
import OptimalTransport.Proofs.Pricing.Agreement
import OptimalTransport.Proofs.Simplex.LastBlocker
import OptimalTransport.Proofs.Flow.Circulation
import OptimalTransport.Proofs.Simplex.Feasible
import OptimalTransport.Proofs.Simplex.Primal
import OptimalTransport.Proofs.Simplex.Progress
import OptimalTransport.Proofs.Simplex.Run
import OptimalTransport.Proofs.Simplex.Solve
import OptimalTransport.Proofs.Plan
import OptimalTransport.Proofs.Simplex.Unbounded
import OptimalTransport.Proofs.Simplex.Optimality
import OptimalTransport.Proofs.Flow.Marginals
import OptimalTransport.Proofs.Simplex.Stranded
import OptimalTransport.Proofs.Simplex.Status
import OptimalTransport.Proofs.Problem
import OptimalTransport.Proofs.Simplex.Duality
import OptimalTransport.Proofs.Simplex.Spread
import OptimalTransport.Proofs.Simplex.Detour
import OptimalTransport.Proofs.Matrix
import OptimalTransport.Proofs.Solver
import OptimalTransport.Proofs.Document.ReadBack
import OptimalTransport.Proofs.Embedding
import OptimalTransport.Proofs.WeightCount
import OptimalTransport.Proofs.Shipments
import OptimalTransport.Proofs.Simplex.BasicSolution
import OptimalTransport.Proofs.Support
import OptimalTransport.Proofs.Simplex.Offsets
import OptimalTransport.Proofs.Drift
import OptimalTransport.Proofs.Tree.FundamentalCycle
import OptimalTransport.Proofs.Overflow
