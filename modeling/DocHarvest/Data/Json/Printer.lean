import DocHarvest.Data.Value

set_option autoImplicit false

namespace DocHarvest.Json

def hexDigit (n : Nat) : Char := (Nat.digitChar (n % 16))

def unicodeEscape (n : Nat) : Text :=
  ['\\', 'u', hexDigit (n / 4096), hexDigit (n / 256), hexDigit (n / 16), hexDigit n]

def escape (c : Char) : Text :=
  if c == '"' then ['\\', '"']
  else if c == '\\' then ['\\', '\\']
  else if c == '\n' then ['\\', 'n']
  else if c == '\r' then ['\\', 'r']
  else if c == '\t' then ['\\', 't']
  else if c.toNat == 8 then ['\\', 'b']
  else if c.toNat == 12 then ['\\', 'f']
  else if c.toNat < 0x20 then unicodeEscape c.toNat
  else [c]

def quoted (t : Text) : Text := '"' :: t.flatMap escape ++ ['"']

def numberText (x : Number) : Text :=
  match x with
  | .finite .. => x.text
  | _ => "null".toList

def atom : Value → Text
  | .bool b => (if b then "true" else "false").toList
  | .number x => numberText x
  | .text t => quoted t
  | _ => "null".toList

mutual

def compact : Value → Text
  | .list items => '[' :: compactItems items ++ [']']
  | .record fields => '\x7b' :: compactFields fields ++ ['\x7d']
  | v => atom v

def compactItems : List Value → Text
  | [] => []
  | [v] => compact v
  | v :: vs => compact v ++ ',' :: compactItems vs

def compactFields : List (Text × Value) → Text
  | [] => []
  | [(k, v)] => quoted k ++ ':' :: compact v
  | (k, v) :: fs => quoted k ++ ':' :: compact v ++ ',' :: compactFields fs

end

def newline (depth : Nat) : Text := '\n' :: List.replicate (2 * depth) ' '

mutual

def indentedAt (depth : Nat) : Value → Text
  | .list [] => ['[', ']']
  | .list items => '[' :: indentedItems (depth + 1) items ++ newline depth ++ [']']
  | .record [] => ['\x7b', '\x7d']
  | .record fields => '\x7b' :: indentedFields (depth + 1) fields ++ newline depth ++ ['\x7d']
  | v => atom v

def indentedItems (depth : Nat) : List Value → Text
  | [] => []
  | [v] => newline depth ++ indentedAt depth v
  | v :: vs => newline depth ++ indentedAt depth v ++ ',' :: indentedItems depth vs

def indentedFields (depth : Nat) : List (Text × Value) → Text
  | [] => []
  | [(k, v)] => newline depth ++ quoted k ++ ':' :: ' ' :: indentedAt depth v
  | (k, v) :: fs =>
    newline depth ++ quoted k ++ ':' :: ' ' :: indentedAt depth v ++ ',' :: indentedFields depth fs

end

def indented (v : Value) : Text := indentedAt 0 v

end DocHarvest.Json
