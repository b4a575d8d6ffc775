import OptimalTransport.Bounded

namespace OptimalTransport

inductive Metric
  | euclidean
  | sqEuclidean
  | manhattan
  deriving DecidableEq, Repr

namespace Metric

instance : Inhabited Metric :=
  ⟨euclidean⟩

def name : Metric → String
  | euclidean => "Euclidean"
  | sqEuclidean => "SqEuclidean"
  | manhattan => "Manhattan"

def all : List Metric :=
  [euclidean, sqEuclidean, manhattan]

variable {α : Type} [Scalar α] [Powers α]

def distance (metric : Metric) (x y : List α) : α :=
  let deltas := List.zipWith (· - ·) x y
  let squares := Scalar.sum (deltas.map fun d => d * d)
  match metric with
  | euclidean => Powers.sqrt squares
  | sqEuclidean => squares
  | manhattan => Scalar.sum (deltas.map Scalar.abs)

def pairwise (metric : Metric) (x y : Matrix α) : Except Fault (Matrix α) := do
  requireCapacity (x.rows * y.rows)
  -- rows are read only where there are pairs of them
  if x.rows = 0 ∨ y.rows = 0 then return .zeros x.rows y.rows
  else
    let xs ← x.toRows
    let ys ← y.toRows
    return ⟨x.rows, y.rows, (xs.flatMap fun a => ys.map (metric.distance a)).toArray⟩

def between (metric : Metric) (source target : Histogram α) : Except Fault (Matrix α) := do
  if source.dimension = 1 then
    metric.pairwise (← source.embed 2).points (← target.embed 2).points
  else metric.pairwise source.points target.points

end Metric

namespace GroundCost

variable {α : Type} [Scalar α]

def check (costs : Matrix α) : Except (InputError α) Unit :=
  match costs.toList.find? fun c => !Scalar.isMagnitude c with
  | some c => .error (.cost c)
  | none => .ok ()

variable [Powers α]

def choose (metric : Metric) (source target : Histogram α) :
    Option (Matrix α) → Except (Failure α) (Matrix α)
  | some costs =>
    if costs.shape = (source.size, target.size) then return costs
    else throw (.refused (.shape (source.size, target.size) costs.shape))
  | none => metric.between source target

end GroundCost

structure Problem (α : Type) where
  ground : Matrix α
  costs : Matrix α
  supply : Array α
  demand : Array α

namespace Problem

variable {α : Type} [Scalar α]

def checkExponent (p : α) : Except (InputError α) Unit :=
  if decide (0 < p) && Scalar.isFinite p then .ok () else .error (.exponent p)

def checkDimension (source target : Histogram α) : Except (InputError α) Unit :=
  if source.dimension = target.dimension then .ok ()
  else .error (.dimension source.dimension target.dimension)

def balance (source target : Histogram α) : Array α :=
  target.weights.map (· * (source.mass / target.mass))

variable [Powers α]

def prepare (exponent : α) (metric : Metric) (source target : Histogram α)
    (costs : Option (Matrix α)) : Except (Failure α) (Problem α) := do
  checkExponent exponent
  source.validate .source
  target.validate .target
  checkDimension source target
  let ground ← GroundCost.choose metric source target costs
  GroundCost.check ground
  return {
    ground
    costs := ground.pow exponent
    supply := source.weights
    demand := balance source target }

end Problem

end OptimalTransport
