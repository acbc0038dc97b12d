import DocHarvest.Data.Value
import DocHarvest.Number.Reader

set_option autoImplicit false

namespace DocHarvest.Yaml

def isNull (t : Text) : Bool :=
  ["", "~", "null", "Null", "NULL"].any fun s => s.toList == t

def bool? (t : Text) : Option Bool :=
  if ["true", "True", "TRUE"].any (fun s => s.toList == t) then some true
  else if ["false", "False", "FALSE"].any (fun s => s.toList == t) then some false
  else none

def splitSign : Text → Bool × Text
  | '-' :: t => (true, t)
  | '+' :: t => (false, t)
  | t => (false, t)

def withoutUnderscores (t : Text) : Text := t.filter (· != '_')

/-- Digits of a base, with underscores anywhere but at the end. -/
def digits? (base : Nat) (t : Text) : Option Nat :=
  let ds := withoutUnderscores t
  if ds != [] && ds.all (fun c => Number.digitValue c < base) && t.getLast? != some '_' then
    some (Number.ofDigits base ds)
  else none

def int? (t : Text) : Option Number :=
  let (negative, u) := splitSign t
  let magnitude? := match u with
    | '0' :: 'b' :: r => digits? 2 r
    | '0' :: 'x' :: r => digits? 16 r
    | '0' :: 'o' :: r => digits? 8 r
    | '0' :: '_' :: _ | '_' :: _ => none
    | r => digits? 10 r
  magnitude?.map fun n => Number.ofRatio (negative && n != 0) n 1

def isDigitOrUnderscore (c : Char) : Bool := Text.isDigit c || c == '_'

def isExponent : Text → Bool
  | [] => true
  | c :: t =>
    let ds := (splitSign t).2
    (c == 'e' || c == 'E') && ds != [] && ds.all Text.isDigit

/-- The shape of a decimal number: without a leading digit it has no sign either. -/
def isFloat (t : Text) : Bool :=
  let u := (splitSign t).2
  let shape := match u with
    | c :: _ =>
      if Text.isDigit c then
        match u.dropWhile isDigitOrUnderscore with
        | '.' :: r => isExponent (r.dropWhile isDigitOrUnderscore)
        | r => isExponent r
      else
        match t with
        | '.' :: d :: r => isDigitOrUnderscore d && isExponent (r.dropWhile isDigitOrUnderscore)
        | _ => false
    | [] => false
  shape && t.getLast? != some '_'

def float? (t : Text) : Option Number :=
  let (negative, u) := splitSign t
  if [".inf", ".Inf", ".INF"].any fun s => s.toList == u then some (.infinite negative)
  else if [".nan", ".NaN", ".NAN"].any fun s => s.toList == t then some .nan
  else if isFloat t then
    some ((Number.readUnsigned? negative (withoutUnderscores u)).getD .nan)
  else none

def upToTwoDigits? (least : Nat) (t : Text) : Option (Nat × Text) :=
  let ds := (t.take 2).takeWhile Text.isDigit
  if least ≤ ds.length then some (Number.ofDigits 10 ds, t.drop ds.length) else none

def year? (t : Text) : Option (Nat × Text) :=
  if (t.take 4).length == 4 && (t.take 4).all Text.isDigit then
    (Text.after? "-" (t.drop 4)).map fun rest => (Number.ofDigits 10 (t.take 4), rest)
  else none

def day? (least : Nat) (t : Text) : Option (Instant × Text) := do
  let (year, r) ← year? t
  let (month, r) ← upToTwoDigits? least r
  let r ← Text.after? "-" r
  let (day, r) ← upToTwoDigits? least r
  return (Instant.ofDay year month day, r)

def zone? (t : Text) : Option Int :=
  let offset (r : Text) : Option Int :=
    match upToTwoDigits? 1 r with
    | some (hours, []) => some (hours * 60)
    | some (hours, ':' :: r) =>
      if r.length == 2 && r.all Text.isDigit then some (hours * 60 + Number.ofDigits 10 r) else none
    | _ => none
  match t.dropWhile fun c => c == ' ' || c == '\t' with
  | ['Z'] => some 0
  | '-' :: r => (offset r).map (- ·)
  | '+' :: r => offset r
  | _ => if t = [] then some 0 else none

/-- The milliseconds that a fraction of a second spells: its first three digits count. -/
def fraction (ds : Text) : Nat := Number.ofDigits 10 ((ds ++ ['0', '0', '0']).take 3)

def moment? (t : Text) : Option Instant := do
  let (day, r) ← day? 1 t
  let r ← match r with
    | 'T' :: s | 't' :: s => some s
    | ' ' :: s | '\t' :: s => some (s.dropWhile fun c => c == ' ' || c == '\t')
    | _ => none
  let (hours, r) ← upToTwoDigits? 1 r
  let r ← Text.after? ":" r
  let (minutes, r) ← upToTwoDigits? 2 r
  let r ← Text.after? ":" r
  let (seconds, r) ← upToTwoDigits? 2 r
  let (milliseconds, r) := match r with
    | '.' :: r => (fraction (r.takeWhile Text.isDigit), r.dropWhile Text.isDigit)
    | r => (0, r)
  let ahead ← zone? r
  return day.plus hours (minutes - ahead) seconds milliseconds

def instant? (t : Text) : Option Instant :=
  match day? 2 t with
  | some (day, []) => some day
  | _ => moment? t

def scalarValue (t : Text) : Value :=
  if isNull t then .null
  else if let some b := bool? t then .bool b
  else if let some x := int? t then .number x
  else if let some x := float? t then .number x
  else if let some i := instant? t then .date i
  else .text t

end DocHarvest.Yaml
