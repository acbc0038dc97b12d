import DocHarvest.Text.Basic

set_option autoImplicit false

namespace DocHarvest.Text

def charUnits (c : Char) : List Nat :=
  let n := c.toNat
  if n < 0x10000 then [n] else [0xD800 + (n - 0x10000) / 0x400, 0xDC00 + (n - 0x10000) % 0x400]

def units (t : Text) : List Nat := t.flatMap charUnits

def unitLength (t : Text) : Nat := (units t).length

def takeUnits : Nat → Text → Text
  | _, [] => []
  | n, c :: t =>
    let k := (charUnits c).length
    if k ≤ n then c :: takeUnits (n - k) t else []

def unitLe (a b : Text) : Bool := !(units b).lex (units a) fun m n => m < n

def sortByUnits (ts : List Text) : List Text := ts.mergeSort unitLe

end DocHarvest.Text
