import OptimalTransport.SpanningTree

namespace OptimalTransport

inductive Half
  | tail
  | head
  deriving DecidableEq, Repr

structure Cycle (n m : Nat) where
  tailSide : List (Site n m)
  headSide : List (Site n m)

def SpanningTree.cycle {n m : Nat} {α : Type} [Scalar α] (net : Network n m α)
    (t : SpanningTree n m α) (a : Arc n m) : Except Fault (Cycle n m) := do
  let apex ← t.join (net.tail a) (net.head a)
  return {
    tailSide := ← t.path (net.tail a) apex
    headSide := ← t.path (net.head a) apex }

namespace SpanningTree

variable {n m : Nat} {α : Type}

def rehang (t : SpanningTree n m α) (v : Site n m) (parent : Node n m) (arc : Arc n m) :
    SpanningTree n m α :=
  let t := t.modifyChildren (·.erase v) (t.parent v)
  let t := { t with parents := t.parents.put v parent, arcs := t.arcs.put v arc }
  t.modifyChildren (v :: ·) parent

/-- Hangs the first site below `parent` by `arc`, and each further one below the site before it by
the arc that joined the two until now. -/
def reverse (t : SpanningTree n m α) (parent : Node n m) (arc : Arc n m) :
    List (Site n m) → SpanningTree n m α
  | [] => t
  | v :: rest => (t.rehang v parent arc).reverse (some v) (t.arc v) rest

def subtreeWithin (t : SpanningTree n m α) : Nat → Site n m → Except Fault (List (Site n m))
  | 0, _ => .error .endless
  | fuel + 1, v => return v :: (← (t.childrenOf (some v)).mapM (t.subtreeWithin fuel)).flatten

def subtree (t : SpanningTree n m α) (v : Site n m) : Except Fault (List (Site n m)) :=
  t.subtreeWithin (n + m) v

variable [Scalar α]

def freshLabel (net : Network n m α) (t : SpanningTree n m α) (v : Site n m) : Label α :=
  let gain := net.gain (t.arc v) v
  match t.parent v with
  | none => .first gain
  | some p => (t.label (some p)).next gain

def relabel (net : Network n m α) (t : SpanningTree n m α) (v : Site n m) : SpanningTree n m α :=
  { t with labels := t.labels.put v (t.freshLabel net v) }

/-- Swaps the arc above `leaving` for `entering`, which joins `inner`, at or below `leaving`, to
`outer`, which is not. -/
def exchange (net : Network n m α) (t : SpanningTree n m α) (entering : Arc n m) (inner : Site n m)
    (outer : Node n m) (leaving : Site n m) : Except Fault (SpanningTree n m α) := do
  net.requireCost entering
  let stem ← t.path (some inner) (some leaving)
  let t := t.reverse outer entering (stem ++ [leaving])
  return (← t.subtree inner).foldl (relabel net) t

end SpanningTree

end OptimalTransport
