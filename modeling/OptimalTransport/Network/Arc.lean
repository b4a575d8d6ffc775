import OptimalTransport.Family

namespace OptimalTransport

abbrev Site (n m : Nat) := Fin (n + m)

abbrev Node (n m : Nat) := Option (Site n m)

inductive Arc (n m : Nat)
  | real (i : Fin n) (j : Fin m)
  | artificial (v : Site n m)
  deriving DecidableEq, Repr

variable {n m : Nat}

namespace Site

def source (i : Fin n) : Site n m :=
  i.castAdd m

def target (j : Fin m) : Site n m :=
  j.natAdd n

end Site

namespace Node

def root : Node n m :=
  none

def index : Node n m → Nat
  | some v => v
  | none => n + m

def ofIndex? (k : Nat) : Option (Node n m) :=
  if h : k < n + m then some (some ⟨k, h⟩)
  else if k = n + m then some none
  else none

end Node

abbrev Route (n m : Nat) := Fin n × Fin m

namespace Route

def index (r : Route n m) : Nat :=
  r.1 * m + r.2

def arc (r : Route n m) : Arc n m :=
  .real r.1 r.2

def ofIndex? (e : Nat) : Option (Route n m) :=
  if h : e < n * m then
    some (⟨e / m, Nat.div_lt_of_lt_mul (Nat.mul_comm n m ▸ h)⟩,
      ⟨e % m, Nat.mod_lt e (Nat.pos_of_mul_pos_left (Nat.zero_lt_of_lt h))⟩)
  else none

def all (n m : Nat) : List (Route n m) :=
  (List.finRange n).flatMap fun i => (List.finRange m).map (i, ·)

theorem index_lt (r : Route n m) : r.index < n * m :=
  calc r.1.val * m + r.2.val < r.1.val * m + m := Nat.add_lt_add_left r.2.isLt _
    _ = (r.1.val + 1) * m := (Nat.succ_mul _ _).symm
    _ ≤ n * m := Nat.mul_le_mul_right _ r.1.isLt

theorem exists_ofIndex? {e : Nat} (h : e < n * m) :
    ∃ r : Route n m, ofIndex? e = some r ∧ r.index = e :=
  ⟨_, dif_pos h, Nat.div_add_mod' e m⟩

def window (first count : Nat) : List (Route n m) :=
  (List.range count).filterMap fun k => ofIndex? ((first + k) % (n * m))

end Route

namespace Arc

def isArtificial : Arc n m → Bool
  | real _ _ => false
  | artificial _ => true

def index : Arc n m → Nat
  | real i j => Route.index (i, j)
  | artificial v => n * m + v

def ofIndex? (e : Nat) : Option (Arc n m) :=
  match Route.ofIndex? e with
  | some r => some r.arc
  | none => if h : e - n * m < n + m then some (artificial ⟨e - n * m, h⟩) else none

def all (n m : Nat) : List (Arc n m) :=
  (Route.all n m).map Route.arc ++ (List.finRange (n + m)).map artificial

end Arc

structure ArcMap (n m : Nat) (β : Type) where
  real : Family n (Family m β)
  artificial : Family (n + m) β

namespace ArcMap

variable {β : Type}

def ofFn (f : Arc n m → β) : ArcMap n m β where
  real := .ofFn fun i => .ofFn fun j => f (.real i j)
  artificial := .ofFn fun v => f (.artificial v)

def get (x : ArcMap n m β) : Arc n m → β
  | .real i j => (x.real.get i).get j
  | .artificial v => x.artificial.get v

def put (x : ArcMap n m β) (a : Arc n m) (b : β) : ArcMap n m β :=
  match a with
  | .real i j => { x with real := x.real.put i ((x.real.get i).put j b) }
  | .artificial v => { x with artificial := x.artificial.put v b }

def modify (x : ArcMap n m β) (a : Arc n m) (f : β → β) : ArcMap n m β :=
  x.put a (f (x.get a))

@[simp]
theorem get_ofFn (f : Arc n m → β) (a : Arc n m) : (ofFn f).get a = f a := by
  cases a <;> simp [get, ofFn]

theorem get_put (x : ArcMap n m β) (a c : Arc n m) (b : β) :
    (x.put a b).get c = if a = c then b else x.get c := by
  cases a <;> cases c <;> simp [get, put, Family.get_put]
  · split <;> simp_all [Family.get_put]

theorem get_modify (x : ArcMap n m β) (a c : Arc n m) (f : β → β) :
    (x.modify a f).get c = if a = c then f (x.get c) else x.get c := by
  rw [modify, get_put]
  split <;> simp_all

end ArcMap

end OptimalTransport
