import OptimalTransport.Scalar
/-!
Binary floating point of 64 bits. As numbers, every operation rounds to the nearest value, and an
integer is rounded once. As text, a value is its shortest decimal: the fewest digits that are read
back as the same value, and of those the ones closest to it. All of that is exact arithmetic on
`m * 2 ^ q`.
-/

namespace OptimalTransport

instance Scalar.binary64 : Scalar Float where
  natCast k := OfScientific.ofScientific k false 0
  abs := Float.abs
  isFinite := Float.isFinite
  decLt := inferInstance
  decLe := inferInstance

instance Powers.binary64 : Powers Float where
  sqrt := Float.sqrt
  pow := Float.pow

structure Decimal where
  digits : Nat
  exponent : Int
  deriving DecidableEq, Repr

structure Binary where
  m : Nat
  q : Int
  /-- Whether the next smaller number of the format lies at half the distance of the next larger. -/
  tight : Bool
  deriving DecidableEq, Repr

namespace Binary

def ofBits (bits : Nat) : Binary :=
  let exponent : Nat := bits / Nat.pow 2 52 % Nat.pow 2 11
  let fraction : Nat := bits % Nat.pow 2 52
  if exponent = 0 then ⟨fraction, -1074, false⟩
  else ⟨Nat.pow 2 52 + fraction, (exponent : Int) - 1075, fraction == 0 && exponent != 1⟩

/-- A quarter of the last binary place and a step of a grid of decimals, both as whole multiples of
one unit that divides the two. -/
structure Grid where
  scale : Nat
  step : Nat

def grid (x : Binary) (k : Int) : Grid where
  scale := Nat.pow 2 (x.q - 2).toNat * Nat.pow 10 (-k).toNat
  step := Nat.pow 2 (2 - x.q).toNat * Nat.pow 10 k.toNat

/-- Whether `c * 10 ^ k` rounds to the number. The ends of the interval do if `m` is even. -/
def admits (x : Binary) (k : Int) (c : Nat) : Bool :=
  let g := x.grid k
  let low := (4 * x.m - if x.tight then 1 else 2) * g.scale
  let high := (4 * x.m + 2) * g.scale
  if x.m % 2 = 0 then low ≤ c * g.step && c * g.step ≤ high
  else low < c * g.step && c * g.step < high

def below (x : Binary) (k : Int) : Nat :=
  4 * x.m * (x.grid k).scale / (x.grid k).step

def nearerAbove (x : Binary) (k : Int) : Bool :=
  let g := x.grid k
  (2 * x.below k + 1) * g.step ≤ 8 * x.m * g.scale

def onGrid? (x : Binary) (k : Int) : Option Decimal :=
  let c := x.below k
  match x.admits k c, x.admits k (c + 1) with
  | true, true => some ⟨if x.nearerAbove k then c + 1 else c, k⟩
  | true, false => some ⟨c, k⟩
  | false, true => some ⟨c + 1, k⟩
  | false, false => none

def search (x : Binary) : Nat → Int → Decimal
  | 0, k => (x.onGrid? k).getD ⟨x.below k, k⟩
  | fuel + 1, k => (x.onGrid? k).getD (x.search fuel (k - 1))

def ceilLog10 (x : Binary) : Int :=
  ((x.m.log2 : Int) + 1 + x.q) * 30103 / 100000 + 1

def shortest (x : Binary) : Decimal :=
  x.search 20 x.ceilLog10

end Binary

end OptimalTransport
