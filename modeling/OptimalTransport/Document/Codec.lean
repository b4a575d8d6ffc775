import OptimalTransport.Document
import OptimalTransport.Solver

namespace OptimalTransport

open Document

variable {α : Type}

namespace Metric

def toDocument (metric : Metric) : Document α :=
  .text metric.name

def ofDocument? : Document α → Option Metric :=
  choice? all name

end Metric

namespace Status

def toDocument (status : Status) : Document α :=
  .text status.name

def ofDocument? : Document α → Option Status :=
  choice? all name

end Status

namespace Simplex.Config

def toDocument (s : Config) : Document α :=
  .record [("iterations", ofNat s.budget)]

def ofDocument? (d : Document α) : Option Config := do
  let fields ← d.fields? ["iterations"]
  return ⟨← required fields "iterations" nat?⟩

end Simplex.Config

variable [Scalar α]

namespace Matrix

def toDocument (a : Matrix α) : Document α :=
  .record [("rows", ofNat a.rows), ("cols", ofNat a.cols), ("data", ofScalars a.toList)]

def ofDocument? (d : Document α) : Option (Matrix α) := do
  let fields ← d.fields? ["rows", "cols", "data"]
  return {
    rows := ← required fields "rows" nat?
    cols := ← required fields "cols" nat?
    data := (← required fields "data" scalars?).toArray }

end Matrix

namespace Histogram

def toDocument (h : Histogram α) : Document α :=
  .record [("points", h.points.toDocument), ("weights", ofScalars h.weights.toList)]

def ofDocument? (d : Document α) : Option (Histogram α) := do
  let fields ← d.fields? ["points", "weights"]
  return {
    points := ← required fields "points" Matrix.ofDocument?
    weights := (← required fields "weights" scalars?).toArray }

end Histogram

namespace Plan

def toDocument (p : Plan α) : Document α :=
  p.matrix.toDocument

def ofDocument? (d : Document α) : Option (Plan α) :=
  (Matrix.ofDocument? d).map Plan.mk

end Plan

namespace Solution

def toDocument (s : Solution α) : Document α :=
  .record [
    ("p", ofScalar s.exponent),
    ("costs", s.costs.toDocument),
    ("plan", s.plan.toDocument),
    ("status", s.status.toDocument),
    ("lhs", ofScalars s.sourcePotentials),
    ("rhs", ofScalars s.targetPotentials),
    ("pivots", ofNat s.pivots)]

def ofDocument? (d : Document α) : Option (Solution α) := do
  let fields ← d.fields? ["p", "costs", "plan", "status", "lhs", "rhs", "pivots"]
  return {
    exponent := ← required fields "p" scalar?
    costs := ← required fields "costs" Matrix.ofDocument?
    plan := ← required fields "plan" Plan.ofDocument?
    status := ← required fields "status" Status.ofDocument?
    sourcePotentials := ← required fields "lhs" scalars?
    targetPotentials := ← required fields "rhs" scalars?
    pivots := ← required fields "pivots" nat? }

end Solution

namespace Solver

def toDocument (s : Solver α) : Document α :=
  .record [
    ("p", ofScalar s.exponent), ("metric", s.metric.toDocument), ("engine", s.engine.toDocument)]

/-- Missing fields are those of the default solver. The exponent is not checked. -/
def ofDocument? (d : Document α) : Option (Solver α) := do
  let fields ← d.fields? ["p", "metric", "engine"]
  let base : Solver α := default
  return {
    exponent := ← defaulted fields "p" scalar? base.exponent
    metric := ← defaulted fields "metric" Metric.ofDocument? base.metric
    engine := ← defaulted fields "engine" Simplex.Config.ofDocument? base.engine }

end Solver

end OptimalTransport
