import OptimalTransport.Pricing
/-!
The state of a run of the network simplex, and one exchange of its basis. Flow is pushed around the
cycle of the entering arc until an arc that loses flow is empty, and that arc leaves. Of several
such arcs the last one on the way around the cycle from its apex, in the direction of the entering
arc, is taken. With this rule an empty arc of the tree always leads toward the root, and no basis
comes back.
-/

namespace OptimalTransport.Simplex

structure Basis (n m : Nat) (α : Type) where
  tree : SpanningTree n m α
  flow : ArcMap n m α
  basic : ArcMap n m Bool
  sweep : Pricing.Sweep
  pivots : Nat

structure Blocker (n m : Nat) (α : Type) where
  site : Site n m
  half : Half
  load : α

variable {n m : Nat} {α : Type} [Scalar α]

namespace Basis

def start (net : Network n m α) : Basis n m α where
  tree := .star net
  flow := .ofFn fun
    | .real _ _ => 0
    | .artificial v => Scalar.abs (net.excess v)
  basic := .ofFn Arc.isArtificial
  sweep := .start (n * m)
  pivots := 0

def load (b : Basis n m α) (v : Site n m) : α :=
  b.flow.get (b.tree.arc v)

end Basis

namespace Blocker

/-- On the side of the tail the cycle goes down, so arcs that lead up lose flow and the first least
load on the way up is the last one on the cycle. -/
def tailStep (net : Network n m α) (b : Basis n m α) (best : Option (Blocker n m α))
    (v : Site n m) : Option (Blocker n m α) :=
  match b.tree.direction net v with
  | .up =>
    let load := b.load v
    -- the bound is infinite at first, and a load has to be below it
    if best.elim (Scalar.isBelowInfinity load) (load < ·.load) then some ⟨v, .tail, load⟩ else best
  | .down => best

/-- On the side of the head the cycle goes up, so arcs that lead down lose flow and the last least
load on the way up is the last one on the cycle, later than any on the other side. -/
def headStep (net : Network n m α) (b : Basis n m α) (best : Option (Blocker n m α))
    (v : Site n m) : Option (Blocker n m α) :=
  match b.tree.direction net v with
  | .up => best
  | .down =>
    let load := b.load v
    -- no number is above the infinite bound
    if best.elim (Scalar.isNumber load) (load ≤ ·.load) then some ⟨v, .head, load⟩ else best

end Blocker

namespace Basis

def leaving (net : Network n m α) (b : Basis n m α) (c : Cycle n m) : Option (Blocker n m α) :=
  c.headSide.foldl (Blocker.headStep net b) (c.tailSide.foldl (Blocker.tailStep net b) none)

def shift (net : Network n m α) (t : SpanningTree n m α) (onUp onDown : α → α)
    (flow : ArcMap n m α) (sites : List (Site n m)) : ArcMap n m α :=
  sites.foldl
    (fun flow v => flow.modify (t.arc v) <|
      match t.direction net v with
      | .up => onUp
      | .down => onDown)
    flow

def augment (net : Network n m α) (b : Basis n m α) (entering : Arc n m) (c : Cycle n m)
    (amount : α) : ArcMap n m α :=
  let lose (x : α) := x - amount
  let add (x : α) := x + amount
  let flow := b.flow.modify entering add
  let flow := shift net b.tree lose add flow c.tailSide
  shift net b.tree add lose flow c.headSide

def pivot (net : Network n m α) (b : Basis n m α) (r : Route n m) :
    Except Fault (Option (Basis n m α)) := do
  let entering := r.arc
  let cycle ← b.tree.cycle net entering
  match b.leaving net cycle with
  | none => return none
  | some blocker =>
    let amount := Scalar.max blocker.load 0
    let flow := if 0 < amount then b.augment net entering cycle amount else b.flow
    let out := b.tree.arc blocker.site
    let source : Site n m := .source r.1
    let target : Site n m := .target r.2
    let (inner, outer) :=
      match blocker.half with
      | .tail => (source, target)
      | .head => (target, source)
    return some {
      tree := ← b.tree.exchange net entering inner (some outer) blocker.site
      flow := flow.put out 0
      basic := (b.basic.put out false).put entering true
      sweep := b.sweep
      pivots := b.pivots + 1 }

end Basis

end OptimalTransport.Simplex
