import OptimalTransport.Histogram
/-!
The size of buffers. Numbers take eight bytes each, and a buffer of `2 ^ 63` bytes or more cannot be
addressed, so what would need one is refused before it is made. The operations on matrices and
histograms of any size that a document can ask for are here again with this check.
-/

namespace OptimalTransport

def capacity : Nat :=
  0xfffffffffffffff

def requireCapacity (count : Nat) : Except Fault Unit :=
  if count ≤ capacity then .ok () else .error .tooLarge

variable {α : Type} [Scalar α]

namespace Matrix

def zerosWithin (rows cols : Nat) : Except Fault (Matrix α) := do
  requireCapacity (rows * cols)
  return zeros rows cols

def padWithin (a : Matrix α) (extra : Nat) : Except Fault (Matrix α) := do
  requireCapacity (a.rows * (a.cols + extra))
  a.pad extra

def rowSumsWithin (a : Matrix α) : Except Fault (List α) := do
  requireCapacity a.rows
  a.rowSums

def colSumsWithin (a : Matrix α) : Except Fault (List α) := do
  requireCapacity a.cols
  a.colSums

end Matrix

namespace Histogram

def uniformWithin (points : Matrix α) : Except Fault (Histogram α) := do
  requireCapacity points.rows
  return uniform points

def supportWithin (h : Histogram α) : Except Fault (List Nat) := do
  requireCapacity h.size
  return h.support

def embedWithin (h : Histogram α) (dimension : Nat) : Except Fault (Histogram α) := do
  requireCapacity (h.size * Nat.max dimension h.dimension)
  h.embed dimension

end Histogram

end OptimalTransport
