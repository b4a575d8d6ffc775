import OptimalTransport.Failure
import OptimalTransport.Scalar
/-!
Dense matrices over one buffer, row after row. A matrix that was read from a document may hold more
or fewer values than its shape says, so `rows` and `cols` describe the addressing only, and each
access is checked against the buffer itself.
-/

namespace OptimalTransport

structure Matrix (α : Type) where
  rows : Nat
  cols : Nat
  data : Array α
  deriving BEq, Repr

namespace Matrix

variable {α : Type}

def Full (a : Matrix α) : Prop :=
  a.data.size = a.rows * a.cols

instance (a : Matrix α) : Decidable a.Full :=
  inferInstanceAs (Decidable (_ = _))

def ofData (rows cols : Nat) (data : Array α) : Except (InputError α) (Matrix α) :=
  if data.size = rows * cols then .ok ⟨rows, cols, data⟩
  else .error (.shape (rows, cols) (data.size / Nat.max cols 1, cols))

def ofRows (rows : List (List α)) : Except (InputError α) (Matrix α) :=
  let width := (rows.head?.map List.length).getD 0
  match rows.find? (·.length != width) with
  | some ragged => .error (.shape (rows.length, width) (rows.length, ragged.length))
  | none => ofData rows.length width rows.flatten.toArray

def column (values : Array α) : Matrix α :=
  ⟨values.size, 1, values⟩

def shape (a : Matrix α) : Nat × Nat :=
  (a.rows, a.cols)

def toList (a : Matrix α) : List α :=
  a.data.toList

/-- The entry at row `i` and column `j`, found at `i * cols + j` whatever `j` is. -/
def get? (a : Matrix α) (i j : Nat) : Option α :=
  a.data[i * a.cols + j]?

def get (a : Matrix α) (i j : Nat) : Except Fault α :=
  Fault.outOfRange.orElse (a.get? i j)

def modify (a : Matrix α) (i j : Nat) (f : α → α) : Except Fault (Matrix α) :=
  if i * a.cols + j < a.data.size then
    .ok { a with data := a.data.modify (i * a.cols + j) f }
  else .error .outOfRange

def set (a : Matrix α) (i j : Nat) (x : α) : Except Fault (Matrix α) :=
  a.modify i j fun _ => x

def slice (a : Matrix α) (i : Nat) : List α :=
  (a.data.extract (i * a.cols) ((i + 1) * a.cols)).toList

def row (a : Matrix α) (i : Nat) : Except Fault (List α) :=
  if (i + 1) * a.cols ≤ a.data.size then .ok (a.slice i) else .error .outOfRange

/-- Accepts matrices all of whose rows lie in the buffer, as rows without entries always do. This is
decided from the sizes, whatever the number of rows. -/
def requireRows (a : Matrix α) : Except Fault Unit :=
  if a.cols = 0 ∨ a.rows * a.cols ≤ a.data.size then .ok () else .error .outOfRange

def toRows (a : Matrix α) : Except Fault (List (List α)) := do
  a.requireRows
  return (List.range a.rows).map a.slice

def map (a : Matrix α) (f : α → α) : Matrix α :=
  { a with data := a.data.map f }

section Scalar

variable [Scalar α]

def zeros (rows cols : Nat) : Matrix α :=
  ⟨rows, cols, Array.replicate (rows * cols) 0⟩

def increment (a : Matrix α) (i j : Nat) (x : α) : Except Fault (Matrix α) :=
  a.modify i j (· + x)

def pow [Powers α] (a : Matrix α) (p : α) : Matrix α :=
  if p == 1 then a else a.map (Powers.pow · p)

def sum (a : Matrix α) : α :=
  Scalar.sum a.toList

def maxFrom (bottom : α) (a : Matrix α) : α :=
  a.data.foldl Scalar.max bottom

def rowSums (a : Matrix α) : Except Fault (List α) :=
  return (← a.toRows).map Scalar.sum

def entry (a : Matrix α) (i j : Nat) : α :=
  (a.get? i j).getD 0

def colSums (a : Matrix α) : Except Fault (List α) := do
  a.requireRows
  return (List.range a.cols).map fun j =>
    (List.range a.rows).foldl (fun total i => total + a.entry i j) 0

def dot (a b : Matrix α) : Except Fault α :=
  if a.shape = b.shape then .ok (Scalar.sum (List.zipWith (· * ·) a.toList b.toList))
  else .error .shapesDiffer

def pad (a : Matrix α) (extra : Nat) : Except Fault (Matrix α) := do
  a.requireRows
  let cols := a.cols + extra
  let data := Array.ofFn fun k : Fin (a.rows * cols) =>
    if k % cols < a.cols then a.entry (k / cols) (k % cols) else 0
  return ⟨a.rows, cols, data⟩

end Scalar

end Matrix

end OptimalTransport
