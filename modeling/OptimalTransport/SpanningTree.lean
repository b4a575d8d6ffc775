import OptimalTransport.Network
/-!
Spanning trees of a network, hung from its root. Each site has a parent, the arc that joins the two
and a label. Child lists allow a change of the tree to relabel only what it moves.

Potentials grow by its cost along each arc of the tree, from zero at the root. A potential is kept
in two parts: the `offset` of the child of the root above the site, which is the penalty up to sign,
and the part `relative` to that child. Sites below one child of the root share their offset, so that
the difference of their potentials is never rounded at the scale of the penalty.
-/

namespace OptimalTransport

@[ext]
structure Label (α : Type) where
  depth : Nat
  offset : α
  relative : α
  /-- The largest absolute value of `relative` on the way from the child of the root. -/
  magnitude : α
  deriving Repr

namespace Label

variable {α : Type} [Scalar α]

def root : Label α :=
  ⟨0, 0, 0, 0⟩

def first (gain : α) : Label α :=
  ⟨1, gain, 0, 0⟩

def next (above : Label α) (gain : α) : Label α :=
  let relative := above.relative + gain
  ⟨above.depth + 1, above.offset, relative, Scalar.max above.magnitude (Scalar.abs relative)⟩

def potential (l : Label α) : α :=
  l.offset + l.relative

end Label

structure SpanningTree (n m : Nat) (α : Type) where
  parents : Family (n + m) (Node n m)
  arcs : Family (n + m) (Arc n m)
  labels : Family (n + m) (Label α)
  children : Family (n + m) (List (Site n m))
  top : List (Site n m)

namespace SpanningTree

variable {n m : Nat} {α : Type}

def parent (t : SpanningTree n m α) (v : Site n m) : Node n m :=
  t.parents.get v

def arc (t : SpanningTree n m α) (v : Site n m) : Arc n m :=
  t.arcs.get v

def childrenOf (t : SpanningTree n m α) : Node n m → List (Site n m)
  | some v => t.children.get v
  | none => t.top

def above (t : SpanningTree n m α) : Node n m → Node n m
  | some v => t.parent v
  | none => none

def modifyChildren (t : SpanningTree n m α) (f : List (Site n m) → List (Site n m)) :
    Node n m → SpanningTree n m α
  | some v => { t with children := t.children.put v (f (t.children.get v)) }
  | none => { t with top := f t.top }

def pathWithin (t : SpanningTree n m α) (apex : Node n m) :
    Nat → Node n m → Except Fault (List (Site n m))
  | fuel, v =>
    if v = apex then .ok []
    else
      match fuel, v with
      | fuel + 1, some u => return u :: (← t.pathWithin apex fuel (t.parent u))
      | _, _ => .error .endless

def path (t : SpanningTree n m α) (v apex : Node n m) : Except Fault (List (Site n m)) :=
  t.pathWithin apex (n + m) v

variable [Scalar α]

def label (t : SpanningTree n m α) : Node n m → Label α
  | some v => t.labels.get v
  | none => .root

def depth (t : SpanningTree n m α) (v : Node n m) : Nat :=
  (t.label v).depth

def direction (net : Network n m α) (t : SpanningTree n m α) (v : Site n m) : Direction :=
  net.direction (t.arc v) v

def joinWithin (t : SpanningTree n m α) : Nat → Node n m → Node n m → Except Fault (Node n m)
  | fuel, u, v =>
    if u = v then .ok u
    else
      match fuel with
      | fuel + 1 =>
        if t.depth v ≤ t.depth u then t.joinWithin fuel (t.above u) v
        else t.joinWithin fuel u (t.above v)
      | 0 => .error .endless

def join (t : SpanningTree n m α) (u v : Node n m) : Except Fault (Node n m) :=
  t.joinWithin (2 * (n + m)) u v

def star (net : Network n m α) : SpanningTree n m α where
  parents := .constant none
  arcs := .ofFn .artificial
  labels := .ofFn fun v => .first (net.gain (.artificial v) v)
  children := .constant []
  top := List.finRange (n + m)

end SpanningTree

end OptimalTransport
