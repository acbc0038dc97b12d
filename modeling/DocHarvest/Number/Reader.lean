import DocHarvest.Number.Basic
import DocHarvest.Text.Basic

set_option autoImplicit false

namespace DocHarvest.Number

def digitValue (c : Char) : Nat :=
  if Text.isDigit c then c.toNat - '0'.toNat
  else if 'a' ≤ c && c ≤ 'f' then c.toNat - 'a'.toNat + 10
  else if 'A' ≤ c && c ≤ 'F' then c.toNat - 'A'.toNat + 10
  else 16

def ofDigits (base : Nat) (ds : Text) : Nat := ds.foldl (fun n c => n * base + digitValue c) 0

def readBase? (base : Nat) (t : Text) : Option Number :=
  if t = [] || t.any (fun c => base ≤ digitValue c) then none
  else some (ofRatio false (ofDigits base t) 1)

def readExponent? : Text → Option Int
  | [] => some 0
  | c :: t =>
    if c != 'e' && c != 'E' then none
    else
      let (negative, ds) := match t with
        | '-' :: r => (true, r)
        | '+' :: r => (false, r)
        | r => (false, r)
      if ds = [] || !ds.all Text.isDigit then none
      else some (if negative then -(ofDigits 10 ds : Int) else ofDigits 10 ds)

def readUnsigned? (negative : Bool) (t : Text) : Option Number :=
  let whole := t.takeWhile Text.isDigit
  let (fraction, rest) := match t.dropWhile Text.isDigit with
    | '.' :: r => (r.takeWhile Text.isDigit, r.dropWhile Text.isDigit)
    | r => ([], r)
  if whole = [] && fraction = [] then none
  else (readExponent? rest).map fun e =>
    ofDecimal negative (ofDigits 10 (whole ++ fraction)) (e - fraction.length)

def readSigned? (t : Text) : Option Number :=
  let (negative, r) := match t with
    | '-' :: r => (true, r)
    | '+' :: r => (false, r)
    | r => (false, r)
  if r = "Infinity".toList then some (.infinite negative) else readUnsigned? negative r

-- Blanks around a number do not count, blank text is zero, and what is no number reads as `nan`.
def ofText (t : Text) : Number :=
  let read? := match Text.trim t with
    | [] => some (zero false)
    | '0' :: 'x' :: r | '0' :: 'X' :: r => readBase? 16 r
    | '0' :: 'o' :: r | '0' :: 'O' :: r => readBase? 8 r
    | '0' :: 'b' :: r | '0' :: 'B' :: r => readBase? 2 r
    | r => readSigned? r
  read?.getD .nan

end DocHarvest.Number
