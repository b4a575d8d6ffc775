namespace OptimalTransport

inductive Fault
  | outOfRange
  | shapesDiffer
  | endless
  | tooLarge
  deriving DecidableEq, Repr

def Fault.orElse {β : Type} (f : Fault) : Option β → Except Fault β
  | some b => .ok b
  | none => .error f

inductive Side
  | source
  | target
  deriving DecidableEq, Repr

def Side.text : Side → String
  | .source => "source"
  | .target => "target"

inductive InputError (α : Type)
  | empty (side : Side)
  | shape (expected found : Nat × Nat)
  | dimension (source target : Nat)
  | weightCount (weights points : Nat)
  | weight (side : Side) (index : Nat) (value : α)
  | totalWeight (side : Side) (total : α)
  | cost (value : α)
  | exponent (value : α)
  deriving Repr

def InputError.message {α : Type} (text : α → String) : InputError α → String
  | .empty side => s!"empty {side.text} histogram"
  | .shape expected found =>
    s!"shape mismatch: expected {expected.1}x{expected.2}, found {found.1}x{found.2}"
  | .dimension source target =>
    s!"dimension mismatch: source is {source}-dimensional, target is {target}-dimensional"
  | .weightCount weights points => s!"invalid weights: {weights} weights for {points} points"
  | .weight side index value => s!"invalid weights: {side.text} weight {index} is {text value}"
  | .totalWeight side total => s!"invalid weights: {side.text} weights sum to {text total}"
  | .cost value => s!"invalid cost: ground cost {text value} is not a finite non-negative number"
  | .exponent value => s!"invalid exponent: {text value}"

inductive Failure (α : Type)
  | refused (error : InputError α)
  | fault (fault : Fault)
  deriving Repr

instance {α : Type} : MonadLift (Except (InputError α)) (Except (Failure α)) where
  monadLift r := r.mapError .refused

instance {α : Type} : MonadLift (Except Fault) (Except (Failure α)) where
  monadLift r := r.mapError .fault

end OptimalTransport
