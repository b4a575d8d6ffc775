import OptimalTransport.SpanningTree.Exchange
/-!
What a unit sent around the cycle of an arc costs: once by the potentials at its ends, and once by
the costs along the cycle itself. The second is slower, but never takes the difference of two
potentials that a costly arc elsewhere in the tree has made large.

The search for an entering route uses the first. A sweep goes through the routes in a circle, block
by block, and stops at the end of the first block that holds a candidate, with the cheapest one of
that block. The next sweep goes on from there.
-/

namespace OptimalTransport.Pricing

/-- The square root, rounded down: twice the root of a quarter, or one more. A quarter has two
binary places less, so that `fuel` places are enough. -/
def floorSqrtWithin : Nat → Nat → Nat
  | 0, _ => 0
  | fuel + 1, k =>
    let r := 2 * floorSqrtWithin fuel (k / 4)
    if (r + 1) * (r + 1) ≤ k then r + 1 else r

def ceilSqrt (k : Nat) : Nat :=
  let r := floorSqrtWithin (k.log2 + 1) k
  if r * r = k then r else r + 1

structure Sweep where
  block : Nat
  next : Nat
  deriving Repr

structure Bid (n m : Nat) (α : Type) where
  route : Route n m
  cost : α

variable {n m : Nat} {α : Type} [Scalar α]

def epsilon : α :=
  1e-12

def reducedCost (net : Network n m α) (t : SpanningTree n m α) (a : Arc n m) : α :=
  let tail := t.label (net.tail a)
  let head := t.label (net.head a)
  (tail.offset - head.offset) + (net.cost a + tail.relative - head.relative)

def tolerance (net : Network n m α) (t : SpanningTree n m α) (a : Arc n m) : α :=
  epsilon * Scalar.max (Scalar.max (Scalar.abs (net.cost a)) (t.label (net.tail a)).magnitude)
    (t.label (net.head a)).magnitude

structure Tally (α : Type) where
  sum : α
  size : α

/-- The cost around the cycle of an arc. Of artificial arcs, only the difference that the offsets of
the two ends have left is counted. -/
def cycleCost (net : Network n m α) (t : SpanningTree n m α) (a : Arc n m) (c : Cycle n m) :
    Tally α :=
  let isReal (v : Site n m) : Bool := !(t.arc v).isArtificial
  let gain (v : Site n m) : α := net.gain (t.arc v) v
  let start : Tally α := ⟨net.cost a, Scalar.abs (net.cost a)⟩
  let down := (c.tailSide.filter isReal).foldl
    (fun x v => ⟨x.sum + gain v, x.size + Scalar.abs (gain v)⟩) start
  let up := (c.headSide.filter isReal).foldl
    (fun x v => ⟨x.sum - gain v, x.size + Scalar.abs (gain v)⟩) down
  ⟨((t.label (net.tail a)).offset - (t.label (net.head a)).offset) + up.sum, up.size⟩

namespace Bid

def improve (net : Network n m α) (t : SpanningTree n m α) (best : Option (Bid n m α))
    (r : Route n m) : Except Fault (Option (Bid n m α)) := do
  net.requireCost r.arc
  let cost := reducedCost net t r.arc
  let least := best.elim 0 Bid.cost
  return if cost < least && cost < -tolerance net t r.arc then some ⟨r, cost⟩ else best

def best (net : Network n m α) (t : SpanningTree n m α) (basic : Arc n m → Bool)
    (routes : List (Route n m)) : Except Fault (Option (Bid n m α)) :=
  routes.foldlM (fun b r => if basic r.arc then pure b else improve net t b r) none

end Bid

namespace Sweep

def start (routes : Nat) : Sweep :=
  ⟨Nat.max (ceilSqrt routes) 16, 0⟩

def blocks (s : Sweep) (routes : Nat) : Nat :=
  (routes + s.block - 1) / s.block

/-- The best bid of a block, and where the next sweep starts after it: at the end of a full block,
and right after the route itself in a short one. -/
def findIn (s : Sweep) (net : Network n m α) (t : SpanningTree n m α) (basic : Arc n m → Bool)
    (k : Nat) : Except Fault (Option (Route n m × Sweep)) := do
  let first := s.next + k * s.block
  let size := Nat.min s.block (n * m - k * s.block)
  let bid ← Bid.best net t basic (Route.window first size)
  return bid.map fun bid =>
    let last := if size = s.block then first + size else bid.route.index + 1
    (bid.route, { s with next := last % (n * m) })

def find (s : Sweep) (net : Network n m α) (t : SpanningTree n m α) (basic : Arc n m → Bool) :
    Except Fault (Option (Route n m × Sweep)) :=
  (List.range (s.blocks (n * m))).findSomeM? (s.findIn net t basic)

end Sweep

end OptimalTransport.Pricing
