import DocHarvest.Number.Basic
import DocHarvest.Text.Basic

/-!
Decimal text of a number: the fewest digits that read back as the same number and, of those, the
nearest; positional up to 21 places and down to six zeros after the point, with an exponent beyond.
-/

set_option autoImplicit false

namespace DocHarvest.Number

def tenTo (e : Int) : Nat × Nat := (Nat.pow 10 e.toNat, Nat.pow 10 (-e).toNat)

/-- How many digits `a / b` has before the point; zero or less counts the zeros after it. -/
def decimalLead (a b : Nat) : Int :=
  let guess : Int := (((a.log2 : Int) - (b.log2 : Int)) * 30103).fdiv 100000
  let fits (k : Int) : Bool := let (p, q) := tenTo k; a * q < b * p
  (([guess - 1, guess, guess + 1, guess + 2] : List Int).find? fits).getD (guess + 3)

/-- Digits and exponent, of the two neighbours of `x` with `n` digits, that read back as `x`. -/
def readBack? (x : Number) (a b : Nat) (lead : Int) (n : Nat) : Option (Nat × Int) :=
  let e := lead - n
  let (p, q) := tenTo e
  let low := (a * q) / (b * p)
  let rest := 2 * ((a * q) % (b * p))
  let order := if b * p < rest || (rest == b * p && low % 2 == 1) then [low + 1, low] else [low, low + 1]
  (order.find? fun d => ofDecimal false d e == x).map fun d => (d, e)

def dropZeros : Nat → Nat → Int → Nat × Int
  | 0, d, e => (d, e)
  | fuel + 1, d, e => if d % 10 = 0 then dropZeros fuel (d / 10) (e + 1) else (d, e)

def shortest (m : Nat) (e2 : Int) : Nat × Int :=
  let a := scaleUp m e2
  let b := scaleUp 1 (-e2)
  let lead := decimalLead a b
  let found := ((List.range 17).map (· + 1)).findSome? (readBack? (.finite false m e2) a b lead)
  let (d, e) := found.getD (m, e2)
  dropZeros 20 d e

def digitsText (n : Nat) : Text := Nat.toDigits 10 n

def layout (d : Nat) (e : Int) : Text :=
  let s := digitsText d
  let k : Int := s.length
  let point := k + e
  if 0 ≤ e && point ≤ 21 then s ++ List.replicate e.toNat '0'
  else if 0 < point && point ≤ 21 then s.take point.toNat ++ '.' :: s.drop point.toNat
  else if -6 < point && point ≤ 0 then '0' :: '.' :: List.replicate (-point).toNat '0' ++ s
  else
    let x := point - 1
    let sign := if x < 0 then '-' else '+'
    let fraction := if s.length = 1 then [] else '.' :: s.drop 1
    s.take 1 ++ fraction ++ 'e' :: sign :: digitsText x.natAbs

def text : Number → Text
  | .nan => "NaN".toList
  | .infinite s => (if s then "-Infinity" else "Infinity").toList
  | .finite s m e =>
    if m = 0 then ['0']
    else
      let (d, x) := shortest m e
      (if s then ['-'] else []) ++ layout d x

end DocHarvest.Number
