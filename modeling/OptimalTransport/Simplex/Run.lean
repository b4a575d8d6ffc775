import OptimalTransport.Engine
import OptimalTransport.Simplex.Pivot

namespace OptimalTransport.Simplex

def feasibility {α : Type} [Scalar α] : α :=
  1e-9

variable {n m : Nat} {α : Type} [Scalar α]

namespace Basis

/-- Whether a route off the tree is still cheap: undecided by its reduced cost, and negative beyond
rounding around its cycle. -/
def isCheap (net : Network n m α) (b : Basis n m α) (r : Route n m) : Except Fault Bool := do
  if b.basic.get r.arc then return false
  else if Pricing.reducedCost net b.tree r.arc < Pricing.tolerance net b.tree r.arc then
    let tally := Pricing.cycleCost net b.tree r.arc (← b.tree.cycle net r.arc)
    return tally.sum < -Pricing.epsilon * tally.size
  else return false

def certify (net : Network n m α) (b : Basis n m α) : Except Fault (Option (Route n m)) :=
  (Route.all n m).findM? (b.isCheap net)

def entering (net : Network n m α) (b : Basis n m α) :
    Except Fault (Option (Route n m × Pricing.Sweep)) := do
  match ← b.sweep.find net b.tree b.basic.get with
  | some found => return some found
  | none => return (← b.certify net).map (·, b.sweep)

def verdict (b : Basis n m α) : Status :=
  let stranded := b.flow.artificial.toList.foldl Scalar.max 0
  if feasibility < stranded then .infeasible else .optimal

def run (net : Network n m α) : Nat → Basis n m α → Except Fault (Status × Basis n m α)
  | budget, b => do
    match ← b.entering net with
    | none => return (b.verdict, b)
    | some (r, sweep) =>
      match budget with
      | 0 => return (.exhausted, b)
      | budget + 1 =>
        match ← { b with sweep }.pivot net r with
        | none => return (.unbounded, b)
        | some next => next.run net budget

def shipments (b : Basis n m α) : List (Shipment α) :=
  (Route.all n m).filterMap fun r =>
    let mass := b.flow.get r.arc
    if 0 < mass then some ⟨r.1, r.2, mass⟩ else none

end Basis

structure Duals (n m : Nat) (α : Type) where
  source : Family n α
  target : Family m α

def baseOffset (t : SpanningTree n m α) : α :=
  if h : 0 < n + m then (t.label (some ⟨0, h⟩)).offset else 0

/-- The potentials of a tree, negated at sources, and shifted against each other so that supply and
demand are valued alike. -/
def duals (net : Network n m α) (t : SpanningTree n m α) : Duals n m α :=
  let potential (v : Site n m) : α :=
    ((t.label (some v)).offset - baseOffset t) + (t.label (some v)).relative
  let source : Family n α := .ofFn fun i => -potential (.source i)
  let target : Family m α := .ofFn fun j => potential (.target j)
  let supplied := Scalar.sum (List.zipWith (· * ·) net.supply.toList source.toList)
  let demanded := Scalar.sum (List.zipWith (· * ·) net.demand.toList target.toList)
  let total := Scalar.sum net.supply.toList + Scalar.sum net.demand.toList
  let shift := if 0 < total then (demanded - supplied) / total else 0
  ⟨source.map (· + shift), target.map (· - shift)⟩

def solve (budget : Nat) (net : Network n m α) : Except Fault (Outcome α) := do
  if feasibility < Scalar.abs net.imbalance then
    return .failure .infeasible 0
  let (status, b) ← (Basis.start net).run net budget
  match status with
  | .optimal =>
    let duals := duals net b.tree
    return ⟨status, b.shipments, duals.source.toList, duals.target.toList, b.pivots⟩
  | _ => return .failure status b.pivots

structure Config where
  budget : Nat
  deriving DecidableEq, Repr

instance : Inhabited Config :=
  ⟨⟨16777216⟩⟩

def Config.transport {α : Type} [Scalar α] (s : Config) : Engine α :=
  fun costs supply demand => do solve s.budget (← Network.build costs supply demand)

end OptimalTransport.Simplex
