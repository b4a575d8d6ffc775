import OptimalTransport.Scalar.Binary64

namespace OptimalTransport

namespace Decimal

structure Layout where
  positional : Int → Bool
  point : Bool

def Layout.value : Layout :=
  ⟨fun e => decide (-4 ≤ e) && decide (e < 16), true⟩

def Layout.message : Layout :=
  ⟨fun _ => true, false⟩

def zeros (k : Nat) : String :=
  String.ofList (List.replicate k '0')

def positionalText (point : Bool) (digits : String) (exponent : Int) : String :=
  let ending := if point then ".0" else ""
  let places := (-exponent).toNat
  if 0 ≤ exponent then digits ++ zeros exponent.toNat ++ ending
  else if digits.length ≤ places then "0." ++ zeros (places - digits.length) ++ digits
  else
    let whole := digits.length - places
    let cs := digits.toList
    String.ofList (cs.take whole) ++ "." ++ String.ofList (cs.drop whole)

def exponentText (digits : String) (exponent : Int) : String :=
  match digits.toList with
  | [] => ""
  | [c] => String.ofList [c] ++ "e" ++ toString exponent
  | c :: cs => String.ofList [c] ++ "." ++ String.ofList cs ++ "e" ++ toString exponent

def trim : Nat → Decimal → Decimal
  | fuel + 1, d => if d.digits % 10 = 0 then trim fuel ⟨d.digits / 10, d.exponent + 1⟩ else d
  | 0, d => d

def render (layout : Layout) (d : Decimal) : String :=
  let d := trim 20 d
  let digits := toString d.digits
  let first := d.exponent + digits.length - 1
  if layout.positional first then positionalText layout.point digits d.exponent
  else exponentText digits first

def text (layout : Layout) (x : Float) : String :=
  if x.isNaN then "NaN"
  else
    let bits := x.toBits.toNat
    let sign := if bits / Nat.pow 2 63 = 1 then "-" else ""
    let size := bits % Nat.pow 2 63
    if x.isInf then sign ++ "inf"
    else if size = 0 then sign ++ "0" ++ if layout.point then ".0" else ""
    else sign ++ (Binary.ofBits size).shortest.render layout

end Decimal

end OptimalTransport
