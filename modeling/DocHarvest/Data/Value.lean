import DocHarvest.Data.Instant
import DocHarvest.Number.Decimal

set_option autoImplicit false

namespace DocHarvest

inductive Value where
  | null
  | bool (b : Bool)
  | number (x : Number)
  | text (t : Text)
  | date (instant : Instant)
  | list (items : List Value)
  | record (fields : List (Text × Value))
  deriving Repr

abbrev Fields := List (Text × Value)

namespace Fields

def get? (fields : Fields) (key : Text) : Option Value := fields.lookup key

def keys (fields : Fields) : List Text := fields.map Prod.fst

def put (key : Text) (v : Value) : Fields → Fields
  | [] => [(key, v)]
  | (k, w) :: rest => if k = key then (k, v) :: rest else (k, w) :: put key v rest

/-- The number that a key spells, if it is the usual spelling of one below `2 ^ 32 - 1`. -/
def keyIndex? (key : Text) : Option Nat :=
  if key = [] || !key.all Text.isDigit then none
  else
    let n := key.foldl (fun n c => n * 10 + (c.toNat - '0'.toNat)) 0
    if Nat.toDigits 10 n = key && n < 4294967295 then some n else none

def arrange (fields : Fields) : Fields :=
  let (numbered, named) := fields.partition fun f => (keyIndex? f.1).isSome
  numbered.mergeSort (fun a b => (keyIndex? a.1).getD 0 ≤ (keyIndex? b.1).getD 0) ++ named

def overlay (upper lower : Fields) : Fields := upper.foldl (fun acc (k, v) => put k v acc) lower

end Fields

namespace Value

def ofEntries (entries : Fields) : Value :=
  .record (Fields.arrange (Fields.overlay entries []))

def typeName : Value → String
  | .null => "null"
  | .bool _ => "boolean"
  | .number .nan => "nan"
  | .number _ => "number"
  | .text _ => "string"
  | .date _ => "date"
  | .list _ => "array"
  | .record _ => "object"

mutual

/-- A value inside a message: text as it is, a list by its items and commas, where an item that is
null leaves nothing. -/
def display : Value → Text
  | .null => "null".toList
  | .bool b => (if b then "true" else "false").toList
  | .number x => x.text
  | .text t => t
  | .date i => i.text
  | .list items => displayItems items
  | .record _ => "[object Object]".toList

def displayItems : List Value → Text
  | [] => []
  | [v] => displayItem v
  | v :: vs => displayItem v ++ ',' :: displayItems vs

def displayItem : Value → Text
  | .null => []
  | v => display v

end

/-- Equality of keys: numbers by value, a missing number equal to itself, and compound values equal
to nothing, since they are told apart by where they are and not by what they hold. -/
def sameKey : Value → Value → Bool
  | .null, .null => true
  | .bool a, .bool b => a == b
  | .number .nan, .number .nan => true
  | .number x, .number y => x.sameValue y
  | .text s, .text t => s == t
  | _, _ => false

def truthy : Value → Bool
  | .null => false
  | .bool b => b
  | .number .nan => false
  | .number x => !x.sameValue (Number.zero false)
  | .text t => t != []
  | _ => true

def field? (v : Value) (key : String) : Option Value :=
  match v with
  | .record fields => Fields.get? fields key.toList
  | _ => none

end Value

end DocHarvest
