import OptimalTransport.Matrix
import OptimalTransport.Network.Arc

namespace OptimalTransport

structure Network (n m : Nat) (α : Type) where
  costs : Matrix α
  supply : Family n α
  demand : Family m α
  penalty : α

/-- How an arc runs between a site and its parent, `up` being toward the parent. -/
inductive Direction
  | up
  | down
  deriving DecidableEq, Repr

namespace Network

variable {n m : Nat} {α : Type} [Scalar α]

def build (costs : Matrix α) (supply demand : Array α) :
    Except Fault (Network supply.size demand.size α) :=
  if costs.shape = (supply.size, demand.size) then
    .ok {
      costs
      supply := .ofArray supply
      demand := .ofArray demand
      penalty := (costs.maxFrom 0 + 1) * ((supply.size + demand.size + 1 : Nat) : α) }
  else .error .shapesDiffer

def excess (net : Network n m α) : Site n m → α :=
  Fin.addCases (fun i => net.supply.get i) (fun j => -net.demand.get j)

def imbalance (net : Network n m α) : α :=
  Scalar.sum ((List.finRange (n + m)).map net.excess)

def cost? (net : Network n m α) : Arc n m → Option α
  | .real i j => net.costs.data[Route.index (i, j)]?
  | .artificial _ => some net.penalty

def cost (net : Network n m α) (a : Arc n m) : α :=
  (net.cost? a).getD 0

def requireCost (net : Network n m α) (a : Arc n m) : Except Fault Unit :=
  if (net.cost? a).isSome then .ok () else .error .outOfRange

def tail (net : Network n m α) : Arc n m → Node n m
  | .real i _ => some (.source i)
  | .artificial v => if 0 ≤ net.excess v then some v else none

def head (net : Network n m α) : Arc n m → Node n m
  | .real _ j => some (.target j)
  | .artificial v => if 0 ≤ net.excess v then none else some v

def direction (net : Network n m α) (a : Arc n m) (v : Site n m) : Direction :=
  if net.tail a = some v then .up else .down

/-- What the potential gains from the parent down to `v` when `a` joins them: potentials grow by the
cost along an arc. -/
def gain (net : Network n m α) (a : Arc n m) (v : Site n m) : α :=
  match net.direction a v with
  | .up => -net.cost a
  | .down => net.cost a

end Network

end OptimalTransport
