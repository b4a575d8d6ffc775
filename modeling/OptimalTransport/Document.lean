import OptimalTransport.Scalar

namespace OptimalTransport

inductive Document (α : Type)
  | null
  | bool (b : Bool)
  | integer (i : Int)
  | number (x : α)
  | text (s : String)
  | list (items : List (Document α))
  | record (fields : List (String × Document α))
  deriving Inhabited, BEq, Repr

namespace Document

variable {α : Type}

def put (fields : List (String × Document α)) (name : String) (d : Document α) :
    List (String × Document α) :=
  fields.filter (·.1 != name) ++ [(name, d)]

def field? (d : Document α) (name : String) : Option (Document α) :=
  match d with
  | record fields => fields.lookup name
  | _ => none

/-- The fields of a structure by name. A list names its items by their places and may not be longer
than the list of names. -/
def fields? (names : List String) : Document α → Option (List (String × Document α))
  | record fields => some fields
  | list items => if items.length ≤ names.length then some (names.zip items) else none
  | _ => none

def required {β : Type} (fields : List (String × Document α)) (name : String)
    (decode : Document α → Option β) : Option β :=
  (fields.lookup name).bind decode

def defaulted {β : Type} (fields : List (String × Document α)) (name : String)
    (decode : Document α → Option β) (default : β) : Option β :=
  (fields.lookup name).elim (some default) decode

def ofNat (k : Nat) : Document α :=
  integer k

def nat? : Document α → Option Nat
  | integer i => if 0 ≤ i then some i.toNat else none
  | _ => none

def items? {β : Type} (decode : Document α → Option β) : Document α → Option (List β)
  | list items => items.mapM decode
  | _ => none

def choice? {β : Type} (all : List β) (name : β → String) : Document α → Option β
  | text s => all.find? (name · == s)
  | record [(s, null)] => all.find? (name · == s)
  | _ => none

variable [Scalar α]

def ofScalar (x : α) : Document α :=
  if Scalar.isFinite x then number x else null

def scalar? : Document α → Option α
  | integer i => some (Scalar.ofInt i)
  | number x => some x
  | _ => none

def ofScalars (xs : List α) : Document α :=
  list (xs.map ofScalar)

def scalars? : Document α → Option (List α) :=
  items? scalar?

end Document

end OptimalTransport
