import OptimalTransport.SpanningTree.Exchange

namespace OptimalTransport

variable {n m : Nat} {α : Type}

def Node.ofIndex (k : Nat) : Except Fault (Node n m) :=
  Fault.outOfRange.orElse (Node.ofIndex? k)

def Arc.ofIndex (e : Nat) : Except Fault (Arc n m) :=
  Fault.outOfRange.orElse (Arc.ofIndex? e)

namespace SpanningTree

def pathByIndex (t : SpanningTree n m α) (v apex : Nat) : Except Fault (List Nat) := do
  let v ← Node.ofIndex v
  match Node.ofIndex? apex with
  | some apex => return (← t.path v apex).map Fin.val
  -- no climb meets a number past the last node
  | none => throw .endless

variable [Scalar α]

/-- The deepest common ancestor of two nodes. Two equal numbers need no climbing, so that they are
not looked up. -/
def joinByIndex (t : SpanningTree n m α) (u v : Nat) : Except Fault Nat :=
  if u = v then return u
  else return (← t.join (← Node.ofIndex u) (← Node.ofIndex v)).index

def exchangeByIndex (net : Network n m α) (t : SpanningTree n m α)
    (entering inner outer leaving : Nat) : Except Fault (SpanningTree n m α) := do
  let entering ← Arc.ofIndex entering
  let outer ← Node.ofIndex outer
  match ← Node.ofIndex inner, ← Node.ofIndex leaving with
  | some inner, some leaving => t.exchange net entering inner outer leaving
  -- the root hangs from nothing
  | _, _ => throw .endless

end SpanningTree

end OptimalTransport
