import OptimalTransport.Document

namespace OptimalTransport.Document

def hexText (k : Nat) : String :=
  String.ofList (Nat.toDigits 16 k)

def quotedChar (c : Char) : String :=
  if c == '\"' then "\\\""
  else if c == '\\' then "\\\\"
  else if c.toNat < 16 then "\\u000" ++ hexText c.toNat
  else if c.toNat < 32 then "\\u00" ++ hexText c.toNat
  else String.ofList [c]

def quoted (s : String) : String :=
  "\"" ++ String.join (s.toList.map quotedChar) ++ "\""

variable {α : Type}

mutual

def write (number : α → String) : Document α → String
  | .null => "null"
  | .bool true => "true"
  | .bool false => "false"
  | .integer i => toString i
  | .number x => number x
  | .text s => quoted s
  | .list items => "[" ++ ",".intercalate (writeItems number items) ++ "]"
  | .record fields => "\x7b" ++ ",".intercalate (writeFields number fields) ++ "\x7d"

def writeItems (number : α → String) : List (Document α) → List String
  | [] => []
  | d :: ds => write number d :: writeItems number ds

def writeFields (number : α → String) : List (String × Document α) → List String
  | [] => []
  | (name, d) :: ds => (quoted name ++ ":" ++ write number d) :: writeFields number ds

end

end OptimalTransport.Document
