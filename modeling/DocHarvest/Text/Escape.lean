import DocHarvest.Number.Reader

set_option autoImplicit false

namespace DocHarvest.Text

def hex4? : Text → Option (Nat × Text)
  | a :: b :: c :: d :: t =>
    if [a, b, c, d].any fun x => 16 ≤ Number.digitValue x then none
    else some (Number.ofDigits 16 [a, b, c, d], t)
  | _ => none

def isLeadUnit (n : Nat) : Bool := 0xD800 ≤ n && n < 0xDC00

def isTrailUnit (n : Nat) : Bool := 0xDC00 ≤ n && n < 0xE000

def joinUnits (lead trail : Nat) : Char :=
  Char.ofNat (0x10000 + (lead - 0xD800) * 0x400 + (trail - 0xDC00))

/-- The character of an escaped unit, together with the escape after it if the two belong together,
and the rest. -/
def escapedChar (unit : Nat) (t : Text) : Char × Text :=
  if isLeadUnit unit then
    match t with
    | '\\' :: 'u' :: r =>
      match hex4? r with
      | some (trail, r') => if isTrailUnit trail then (joinUnits unit trail, r') else ('\uFFFD', t)
      | none => ('\uFFFD', t)
    | _ => ('\uFFFD', t)
  else if isTrailUnit unit then ('\uFFFD', t)
  else (Char.ofNat unit, t)

end DocHarvest.Text
