import OptimalTransport.Problem
import OptimalTransport.Simplex.Run

namespace OptimalTransport

structure Solution (α : Type) where
  exponent : α
  costs : Matrix α
  plan : Plan α
  status : Status
  sourcePotentials : List α
  targetPotentials : List α
  pivots : Nat
  deriving BEq, Repr

namespace Solution

variable {α : Type} [Scalar α]

def ofOutcome (exponent : α) (costs : Matrix α) (o : Outcome α) : Except Fault (Solution α) := do
  requireCapacity (costs.rows * costs.cols)
  let plan ←
    match o.status with
    | .optimal => Plan.scatter costs.rows costs.cols o.shipments
    | _ => pure (.zeros costs.rows costs.cols)
  return ⟨exponent, costs, plan, o.status, o.sourcePotentials, o.targetPotentials, o.pivots⟩

def success (s : Solution α) : Bool :=
  s.status == .optimal

variable [Powers α]

def cost (s : Solution α) : Except Fault α :=
  s.plan.cost (s.costs.pow s.exponent)

def distance (s : Solution α) : Except Fault α :=
  return Powers.pow (← s.cost) (1 / s.exponent)

end Solution

structure Solver (α : Type) where
  exponent : α
  metric : Metric
  engine : Simplex.Config
  deriving DecidableEq, Repr

namespace Solver

variable {α : Type} [Scalar α]

instance : Inhabited (Solver α) :=
  ⟨⟨2.0, default, default⟩⟩

def ofExponent (p : α) : Except (InputError α) (Solver α) := do
  Problem.checkExponent p
  return { (default : Solver α) with exponent := p }

variable [Powers α]

def prepare (s : Solver α) : Histogram α → Histogram α → Option (Matrix α) →
    Except (Failure α) (Problem α) :=
  Problem.prepare s.exponent s.metric

def fitWith (s : Solver α) (engine : Engine α) (source target : Histogram α)
    (costs : Option (Matrix α)) : Except (Failure α) (Solution α) := do
  let problem ← s.prepare source target costs
  let outcome ← engine problem.costs problem.supply problem.demand
  Solution.ofOutcome s.exponent problem.ground outcome

/-- A plan of least cost. That none was found is no failure, but shows in the status. -/
def fit (s : Solver α) (source target : Histogram α) (costs : Option (Matrix α)) :
    Except (Failure α) (Solution α) :=
  s.fitWith s.engine.transport source target costs

end Solver

end OptimalTransport
