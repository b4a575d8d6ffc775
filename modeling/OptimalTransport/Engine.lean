import OptimalTransport.Matrix

namespace OptimalTransport

inductive Status
  | optimal
  | infeasible
  | unbounded
  | exhausted
  deriving DecidableEq, Repr

namespace Status

def name : Status → String
  | optimal => "Optimal"
  | infeasible => "Infeasible"
  | unbounded => "Unbounded"
  | exhausted => "Exhausted"

def message : Status → String
  | optimal => "optimal"
  | infeasible => "infeasible"
  | unbounded => "unbounded"
  | exhausted => "iteration limit reached"

def all : List Status :=
  [optimal, infeasible, unbounded, exhausted]

end Status

structure Shipment (α : Type) where
  source : Nat
  target : Nat
  mass : α
  deriving BEq, Repr

structure Outcome (α : Type) where
  status : Status
  shipments : List (Shipment α)
  sourcePotentials : List α
  targetPotentials : List α
  pivots : Nat
  deriving Repr

def Outcome.failure {α : Type} (status : Status) (pivots : Nat) : Outcome α :=
  ⟨status, [], [], [], pivots⟩

abbrev Engine (α : Type) :=
  Matrix α → Array α → Array α → Except Fault (Outcome α)

structure Plan (α : Type) where
  matrix : Matrix α
  deriving BEq, Repr

namespace Plan

variable {α : Type} [Scalar α]

def zeros (n m : Nat) : Plan α :=
  ⟨.zeros n m⟩

def scatter (n m : Nat) (shipments : List (Shipment α)) : Except Fault (Plan α) :=
  return ⟨← shipments.foldlM (fun a s => a.increment s.source s.target s.mass) (.zeros n m)⟩

def support (p : Plan α) : Except Fault (List (Shipment α)) :=
  let m := p.matrix.cols
  (p.matrix.toList.zipIdx.filter fun (x, _) => decide (0 < x)).mapM fun (x, k) =>
    if m = 0 then .error .outOfRange else .ok ⟨k / m, k % m, x⟩

def cost (p : Plan α) (costs : Matrix α) : Except Fault α :=
  p.matrix.dot costs

end Plan

end OptimalTransport
