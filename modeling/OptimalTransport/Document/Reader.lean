import OptimalTransport.Document
import OptimalTransport.Scalar

namespace OptimalTransport.Document

def skipBlanks : List Char → List Char :=
  List.dropWhile fun c => c == ' ' || c == '\n' || c == '\t' || c == '\r'

def hexDigit? (c : Char) : Option Nat :=
  if c.isDigit then some (c.toNat - 48)
  else if 'a' ≤ c && c ≤ 'f' then some (c.toNat - 87)
  else if 'A' ≤ c && c ≤ 'F' then some (c.toNat - 55)
  else none

def codeUnit? (a b c d : Char) : Option Nat := do
  return (((← hexDigit? a) * 16 + (← hexDigit? b)) * 16 + (← hexDigit? c)) * 16 + (← hexDigit? d)

def escaped? : Char → Option Char
  | '\"' => some '\"'
  | '\\' => some '\\'
  | '/' => some '/'
  | 'b' => some '\x08'
  | 'f' => some '\x0c'
  | 'n' => some '\n'
  | 'r' => some '\r'
  | 't' => some '\t'
  | _ => none

def readChars : List Char → Option (List Char × List Char)
  | [] => none
  | '\"' :: rest => some ([], rest)
  | '\\' :: 'u' :: a :: b :: c :: d :: rest => do
    let high ← codeUnit? a b c d
    if 0xd800 ≤ high && high < 0xdc00 then
      match rest with
      | '\\' :: 'u' :: a :: b :: c :: d :: rest =>
        let low ← codeUnit? a b c d
        if 0xdc00 ≤ low && low < 0xe000 then
          let (cs, rest) ← readChars rest
          return (Char.ofNat (0x10000 + (high - 0xd800) * 0x400 + (low - 0xdc00)) :: cs, rest)
        else none
      | _ => none
    else if 0xdc00 ≤ high && high < 0xe000 then none
    else
      let (cs, rest) ← readChars rest
      return (Char.ofNat high :: cs, rest)
  | '\\' :: c :: rest => do
    let c ← escaped? c
    let (cs, rest) ← readChars rest
    return (c :: cs, rest)
  | c :: rest => do
    if c.toNat < 32 then none
    let (cs, rest) ← readChars rest
    return (c :: cs, rest)

def digitsValue (ds : List Char) : Nat :=
  ds.foldl (fun k c => 10 * k + (c.toNat - 48)) 0

def readDigits (cs : List Char) : List Char × List Char :=
  (cs.takeWhile Char.isDigit, cs.dropWhile Char.isDigit)

def readFraction : List Char → Option (List Char × List Char)
  | '.' :: cs =>
    let (ds, rest) := readDigits cs
    if ds.isEmpty then none else some (ds, rest)
  | cs => some ([], cs)

def readExponent (cs : List Char) : Option (Option Int × List Char) :=
  let go (negative : Bool) (cs : List Char) : Option (Option Int × List Char) :=
    let (ds, rest) := readDigits cs
    if ds.isEmpty then none
    else
      let e : Int := digitsValue ds
      some (some (if negative then -e else e), rest)
  match cs with
  | c :: rest =>
    if c == 'e' || c == 'E' then
      match rest with
      | '-' :: rest => go true rest
      | '+' :: rest => go false rest
      | rest => go false rest
    else some (none, cs)
  | [] => some (none, [])

variable {α : Type} [Scalar α]

def decimal (digits : Nat) (exponent : Int) : α :=
  OfScientific.ofScientific digits (decide (exponent < 0)) exponent.natAbs

/-- An integer if there is neither fraction nor exponent, if it fits into 64 bits, and if it is not
a negative zero. -/
def numeral (negative : Bool) (whole fraction : List Char) (exponent : Option Int) : Document α :=
  let digits := digitsValue (whole ++ fraction)
  let fits :=
    if negative then 0 < digits && digits ≤ 0x8000000000000000
    else digits ≤ 0xffffffffffffffff
  if fraction.isEmpty && exponent.isNone && fits then
    .integer (if negative then -digits else digits)
  else
    let size : α := decimal digits (exponent.getD 0 - fraction.length)
    .number (if negative then -size else size)

def readNumber (cs : List Char) : Option (Document α × List Char) := do
  let negative := cs.head? == some '-'
  let (whole, rest) := readDigits (if negative then cs.tail else cs)
  if whole.isEmpty || (whole.head? == some '0' && whole.length != 1) then none
  let (fraction, rest) ← readFraction rest
  let (exponent, rest) ← readExponent rest
  return (numeral negative whole fraction exponent, rest)

mutual

def readValue : Nat → List Char → Option (Document α × List Char)
  | 0, _ => none
  | fuel + 1, cs =>
    match skipBlanks cs with
    | 'n' :: 'u' :: 'l' :: 'l' :: rest => some (.null, rest)
    | 't' :: 'r' :: 'u' :: 'e' :: rest => some (.bool true, rest)
    | 'f' :: 'a' :: 'l' :: 's' :: 'e' :: rest => some (.bool false, rest)
    | '\"' :: rest => do
      let (s, rest) ← readChars rest
      return (.text (String.ofList s), rest)
    | '[' :: rest =>
      match skipBlanks rest with
      | ']' :: rest => some (.list [], rest)
      | rest => do
        let (items, rest) ← readItems fuel rest
        return (.list items, rest)
    | '\x7b' :: rest =>
      match skipBlanks rest with
      | '\x7d' :: rest => some (.record [], rest)
      | rest => readFields fuel [] rest
    | rest => readNumber rest

def readItems : Nat → List Char → Option (List (Document α) × List Char)
  | 0, _ => none
  | fuel + 1, cs => do
    let (d, rest) ← readValue fuel cs
    match skipBlanks rest with
    | ']' :: rest => return ([d], rest)
    | ',' :: rest =>
      let (ds, rest) ← readItems fuel rest
      return (d :: ds, rest)
    | _ => none

def readFields :
    Nat → List (String × Document α) → List Char → Option (Document α × List Char)
  | 0, _, _ => none
  | fuel + 1, fields, cs =>
    match skipBlanks cs with
    | '\"' :: rest => do
      let (name, rest) ← readChars rest
      match skipBlanks rest with
      | ':' :: rest =>
        let (d, rest) ← readValue fuel rest
        let fields := put fields (String.ofList name) d
        match skipBlanks rest with
        | '\x7d' :: rest => return (.record fields, rest)
        | ',' :: rest => readFields fuel fields rest
        | _ => none
      | _ => none
    | _ => none

end

def read? (s : String) : Option (Document α) :=
  match readValue (2 * s.length + 2) s.toList with
  | some (d, rest) => if (skipBlanks rest).isEmpty then some d else none
  | none => none

end OptimalTransport.Document
