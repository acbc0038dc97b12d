import DocHarvest.Text.Basic

/-!
Alternatives in a file pattern. A brace pair stands for each of its parts in turn: parts divided by
commas, or the members of a sequence such as `1..3` or `a..e`. A pair that holds neither stands for
itself, and so does one after a dollar sign. A backslash takes the meaning of the character after it.
-/

set_option autoImplicit false

namespace DocHarvest.Glob

def untilClosed : Nat → Text → Option (Text × Text)
  | _, [] => none
  | depth, '\\' :: c :: t => (untilClosed depth t).map fun (body, rest) => ('\\' :: c :: body, rest)
  | depth, '\x7b' :: t => (untilClosed (depth + 1) t).map fun (body, rest) => ('\x7b' :: body, rest)
  | 0, '\x7d' :: t => some ([], t)
  | depth + 1, '\x7d' :: t => (untilClosed depth t).map fun (body, rest) => ('\x7d' :: body, rest)
  | depth, c :: t => (untilClosed depth t).map fun (body, rest) => (c :: body, rest)

structure Group where
  before : Text
  body : Text
  after : Text
  deriving DecidableEq, Repr

def group? : Text → Option Group
  | [] => none
  | '\\' :: c :: t => (group? t).map fun g => { g with before := '\\' :: c :: g.before }
  | c :: t =>
    match if c == '\x7b' then untilClosed 0 t else none with
    | some (body, rest) => some ⟨[], body, rest⟩
    | none => (group? t).map fun g => { g with before := c :: g.before }

def commaParts (depth : Nat) (current : Text) : Text → List Text
  | [] => [current.reverse]
  | '\\' :: c :: t => commaParts depth (c :: '\\' :: current) t
  | c :: t =>
    if c == ',' && depth == 0 then current.reverse :: commaParts 0 [] t
    else if c == '\x7b' then commaParts (depth + 1) (c :: current) t
    else if c == '\x7d' then commaParts (depth - 1) (c :: current) t
    else commaParts depth (c :: current) t

def signedDigits? (t : Text) : Option (Text × Text) :=
  match t with
  | '-' :: t => (Text.run? Text.isDigit t).map fun (ds, rest) => ('-' :: ds, rest)
  | t => Text.run? Text.isDigit t

def intOf (t : Text) : Int :=
  let size (ds : Text) : Int := ds.foldl (fun n c => n * 10 + (c.toNat - '0'.toNat)) 0
  match t with
  | '-' :: ds => -size ds
  | ds => size ds

def stepOf? (t : Text) : Option (Text × Nat) :=
  if t = [] then some ([], 1)
  else do
    let (step, rest) ← (Text.after? ".." t).bind signedDigits?
    if rest = [] then some (step, max 1 (intOf step).natAbs) else none

def numbersBetween (x y : Int) (step : Nat) : List Int :=
  (List.range ((y - x).natAbs / step + 1)).map fun (i : Nat) =>
    if x ≤ y then x + step * i else x - step * i

def isPadded (t : Text) : Bool :=
  match if t.head? = some '-' then t.drop 1 else t with
  | '0' :: _ :: _ => true
  | _ => false

def numberText (width : Nat) (n : Int) : Text :=
  let sign : Text := if n < 0 then ['-'] else []
  let digits := Nat.toDigits 10 n.natAbs
  sign ++ List.replicate (width - sign.length - digits.length) '0' ++ digits

/-- The members of a sequence of numbers, all of one width if an end or the step is padded. -/
def numberSequence? (body : Text) : Option (List Text) := do
  let (a, t) ← signedDigits? body
  let (b, t) ← (Text.after? ".." t).bind signedDigits?
  let (s, step) ← stepOf? t
  let width := if [a, b, s].any isPadded then max a.length b.length else 0
  return (numbersBetween (intOf a) (intOf b) step).map (numberText width)

/-- The members of a sequence of letters; a backslash on the way is left out. -/
def letterSequence? (body : Text) : Option (List Text) :=
  match body with
  | a :: '.' :: '.' :: b :: t => do
    let (_, step) ← stepOf? t
    if Text.isLetter a && Text.isLetter b then
      some ((numbersBetween a.toNat b.toNat step).map fun (n : Int) =>
        if n.toNat = '\\'.toNat then [] else [Char.ofNat n.toNat])
    else none
  | _ => none

def commaThenClose : Text → Bool
  | [] => false
  | ',' :: t => (t.head? ≠ some ',' && t.contains '\x7d') || commaThenClose t
  | _ :: t => commaThenClose t

/-- Every pair handled uses up at least one brace, so `fuel` for each brace is enough. -/
def expandWith (fuel : Nat) (t : Text) : List Text :=
  match fuel, group? t with
  | 0, _ | _, none => [t]
  | fuel + 1, some ⟨before, body, after⟩ =>
    let ends := if after = [] then [[]] else expandWith fuel after
    let between (parts : List Text) : List Text :=
      parts.flatMap fun part => ends.map fun last => before ++ part ++ last
    let embrace (part : Text) : Text := '\x7b' :: part ++ ['\x7d']
    if before.getLast? = some '$' then between [embrace body]
    else
      match numberSequence? body <|> letterSequence? body with
      | some members => between members
      | none =>
        if body.contains ',' then
          match commaParts 0 [] body with
          | [part] => between ((expandWith fuel part).map embrace)
          | parts => between (parts.flatMap (expandWith fuel))
        else if commaThenClose after then
          expandWith fuel (before ++ '\x7b' :: body ++ '\\' :: '\x7d' :: after)
        else [t]

def expand (t : Text) : List Text :=
  match t with
  | '\x7b' :: '\x7d' :: rest => expandWith rest.length ('\\' :: '\x7b' :: '\\' :: '\x7d' :: rest)
  | t => (expandWith t.length t).filter (· ≠ [])

end DocHarvest.Glob
