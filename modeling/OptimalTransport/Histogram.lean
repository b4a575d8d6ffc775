import OptimalTransport.Matrix

namespace OptimalTransport

def density {α : Type} [Scalar α] (weights : Array α) (x : Nat) : α :=
  weights[x]?.getD 0

/-- The indices below `n`, but of those past the end of the list, which all have the weight zero,
the first one only. -/
def indicesBelow {α : Type} (n : Nat) (weights : Array α) : List Nat :=
  List.range (Nat.min n (weights.size + 1))

theorem indicesBelow_of_le {α : Type} {n : Nat} {weights : Array α} (h : n ≤ weights.size + 1) :
    indicesBelow n weights = List.range n :=
  congrArg List.range (Nat.min_eq_left h)

/-- The total weight of the indices below `n`. Zero added twice is zero added once, so that one
index past the end of the list stands for all of them. -/
def massBelow {α : Type} [Scalar α] (n : Nat) (weights : Array α) : α :=
  Scalar.sum ((indicesBelow n weights).map (density weights))

structure Histogram (α : Type) where
  points : Matrix α
  weights : Array α
  deriving BEq, Repr

namespace Histogram

variable {α : Type}

def ofWeights (points : Matrix α) (weights : Array α) : Except (InputError α) (Histogram α) :=
  if points.rows = weights.size then .ok ⟨points, weights⟩
  else .error (.weightCount weights.size points.rows)

def line (positions weights : Array α) : Except (InputError α) (Histogram α) :=
  ofWeights (.column positions) weights

def size (h : Histogram α) : Nat :=
  h.points.rows

def dimension (h : Histogram α) : Nat :=
  h.points.cols

def support (h : Histogram α) : List Nat :=
  List.range h.size

variable [Scalar α]

def uniform (points : Matrix α) : Histogram α :=
  ⟨points, Array.replicate points.rows (1 / (points.rows : α))⟩

def density (h : Histogram α) (x : Nat) : α :=
  OptimalTransport.density h.weights x

def mass (h : Histogram α) : α :=
  massBelow h.size h.weights

def normalize (h : Histogram α) : Histogram α :=
  { h with weights := h.weights.map (· / h.mass) }

def embed (h : Histogram α) (dimension : Nat) : Except Fault (Histogram α) :=
  return { h with points := ← h.points.pad (dimension - h.dimension) }

def massTolerance : α :=
  1e-6

def validate (h : Histogram α) (side : Side) : Except (InputError α) Unit :=
  if h.size = 0 then .error (.empty side)
  else
    match (indicesBelow h.size h.weights).find? fun x => !Scalar.isMagnitude (h.density x) with
    | some x => .error (.weight side x (h.density x))
    | none =>
      if massTolerance < Scalar.abs (h.mass - 1) then .error (.totalWeight side h.mass)
      else .ok ()

end Histogram

end OptimalTransport
