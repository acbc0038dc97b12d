/-!
Binary floating point numbers of 64 bits, held as exact values. A finite number is a signed
mantissa times a power of two, the mantissa odd or zero, so that equal values have equal parts and
a number is whole exactly when its exponent is not negative. Everything that rounds goes through
`ofRatio`.
-/

set_option autoImplicit false

namespace DocHarvest

inductive Number where
  | nan
  | infinite (negative : Bool)
  | finite (negative : Bool) (mantissa : Nat) (exponent : Int)
  deriving DecidableEq, Repr

namespace Number

def zero (negative : Bool) : Number := .finite negative 0 0

def reduce : Nat → Nat → Int → Nat × Int
  | 0, m, e => (m, e)
  | fuel + 1, m, e => if m % 2 = 0 then reduce fuel (m / 2) (e + 1) else (m, e)

def ofDyadic (negative : Bool) (m : Nat) (e : Int) : Number :=
  if m = 0 then zero negative
  else
    let (m', e') := reduce m.log2 m e
    .finite negative m' e'

def divideToEven (a b : Nat) : Nat :=
  let q := a / b
  let r := 2 * (a % b)
  if b < r || (r == b && q % 2 == 1) then q + 1 else q

def scaleUp (n : Nat) (e : Int) : Nat := n * Nat.pow 2 e.toNat

/-- The number nearest to `a / b`: 53 bits of mantissa, no exponent below -1074, and infinite from
half a step above the largest finite number on. -/
def ofRatio (negative : Bool) (a b : Nat) : Number :=
  if a = 0 || b = 0 then zero negative
  else
    let guess : Int := (a.log2 : Int) - (b.log2 : Int)
    -- The position of the quotient's leading bit is the guess or one below it.
    let lead := if scaleUp b guess ≤ scaleUp a (-guess) then guess else guess - 1
    let e := if lead < -1022 then -1074 else lead - 52
    let m := divideToEven (scaleUp a (-e)) (scaleUp b e)
    if scaleUp 1 1024 ≤ scaleUp m e then .infinite negative else ofDyadic negative m e

def ofDecimal (negative : Bool) (digits : Nat) (e : Int) : Number :=
  let size : Int := (digits.log2 : Int) / 4 + e
  if digits = 0 then zero negative
  else if 400 < size then .infinite negative
  else if (digits.log2 : Int) + e < -400 then zero negative
  else ofRatio negative (digits * Nat.pow 10 e.toNat) (Nat.pow 10 (-e).toNat)

def ofInt (i : Int) : Number := ofRatio (i < 0) i.natAbs 1

def ofNat (n : Nat) : Number := ofInt n

def isWhole : Number → Bool
  | .finite _ _ e => 0 ≤ e
  | _ => false

def isNegative : Number → Bool
  | .finite s m _ => s && m != 0
  | .infinite s => s
  | .nan => false

def floor? : Number → Option Int
  | .finite s m e =>
    let up := scaleUp m e
    let down := scaleUp 1 (-e)
    let i : Int := if s then -up else up
    some (i.fdiv down)
  | _ => none

def ceil? (x : Number) : Option Int :=
  match x with
  | .finite s m e => (floor? (.finite (!s) m e)).map fun i => -i
  | _ => none

def neg : Number → Number
  | .finite s m e => .finite (!s) m e
  | .infinite s => .infinite (!s)
  | .nan => .nan

def multipleOf (s : Bool) (m : Nat) (own e : Int) : Int :=
  let k : Int := scaleUp m (own - e)
  if s then -k else k

def add : Number → Number → Number
  | .nan, _ | _, .nan => .nan
  | .infinite s, .infinite t => if s == t then .infinite s else .nan
  | .infinite s, .finite .. => .infinite s
  | .finite .., .infinite t => .infinite t
  | .finite s m e, .finite t n f =>
    let low := if e ≤ f then e else f
    let sum := multipleOf s m e low + multipleOf t n f low
    if sum = 0 then zero (s && t && m == 0 && n == 0)
    else ofRatio (sum < 0) (scaleUp sum.natAbs low) (scaleUp 1 (-low))

def sub (x y : Number) : Number := add x y.neg

def mul : Number → Number → Number
  | .nan, _ | _, .nan => .nan
  | .infinite s, .infinite t => .infinite (s != t)
  | .infinite s, .finite t n _ => if n = 0 then .nan else .infinite (s != t)
  | .finite s m _, .infinite t => if m = 0 then .nan else .infinite (s != t)
  | .finite s m e, .finite t n f =>
    ofRatio (s != t) (scaleUp (m * n) (e + f)) (scaleUp 1 (-(e + f)))

/-- Equality of values: zeros of both signs are equal, and a missing number equals nothing. -/
def sameValue : Number → Number → Bool
  | .finite _ 0 _, .finite _ 0 _ => true
  | .nan, _ => false
  | x, y => x == y

end Number

end DocHarvest
