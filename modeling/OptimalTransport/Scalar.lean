/-!
The numbers that masses, costs and coordinates are made of. Every algorithm of the library is
written over `Scalar`, so that one definition is run in binary floating point and reasoned about
over exact arithmetic, or over operations of which nothing is known.
-/

namespace OptimalTransport

class Scalar (α : Type) extends Zero α, One α, Add α, Sub α, Mul α, Div α, Neg α, LT α, LE α,
    BEq α, NatCast α, OfScientific α where
  abs : α → α
  isFinite : α → Bool
  decLt : DecidableLT α
  decLe : DecidableLE α

instance Scalar.decidableLT {α : Type} [Scalar α] : DecidableLT α :=
  Scalar.decLt

instance Scalar.decidableLE {α : Type} [Scalar α] : DecidableLE α :=
  Scalar.decLe

class Powers (α : Type) where
  sqrt : α → α
  pow : α → α → α

namespace Scalar

variable {α : Type} [Scalar α]

def isNumber (a : α) : Bool :=
  decide (a ≤ a)

/-- Whether a value is below positive infinity. Of those that are not finite, only negative infinity
is. -/
def isBelowInfinity (a : α) : Bool :=
  isFinite a || decide (a < 0)

/-- The larger of two values. One that is no number loses to the other, and of equals the second is
taken. -/
def max (a b : α) : α :=
  if isNumber b then if b < a then a else b else a

/-- The sum of a list, added from left to right. It starts from `-0`, the neutral element also where
zeros have signs. -/
def sum (xs : List α) : α :=
  xs.foldl (· + ·) (-0)

def isMagnitude (a : α) : Bool :=
  decide (0 ≤ a) && isFinite a

def ofInt : Int → α
  | .ofNat k => (k : α)
  | .negSucc k => -((k + 1 : Nat) : α)

end Scalar

end OptimalTransport
