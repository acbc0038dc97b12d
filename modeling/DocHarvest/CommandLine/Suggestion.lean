import DocHarvest.Text.Units

set_option autoImplicit false

namespace DocHarvest.CommandLine

/-- The distances of a start of the first word, which ends in `last` and then `x`, from all starts
of the word `b`. `prev` and `older` are the rows of the starts one and two units shorter. -/
def nextRow (b older prev : List Nat) (last : Option Nat) (x : Nat) : List Nat :=
  b.zipIdx.foldl (fun row (y, j) =>
    let change := prev.getD j 0 + if x = y then 0 else 1
    let best := min (min (prev.getD (j + 1) 0 + 1) (row.getD j 0 + 1)) change
    let swapped := 0 < j && last = some y && b[j - 1]? = some x
    row ++ [if swapped then min best (older.getD (j - 1) 0 + 1) else best]) [prev.headD 0 + 1]

def lastRow (b : List Nat) : (older prev : List Nat) → (last : Option Nat) → List Nat → List Nat
  | _, prev, _, [] => prev
  | older, prev, last, x :: xs => lastRow b prev (nextRow b older prev last x) (some x) xs

def edits (a b : List Nat) : Nat :=
  (lastRow b [] (List.range (b.length + 1)) none a).getLastD 0

def mostEdits : Nat := 3

/-- The number of edits to a candidate that is close enough to suggest: more than two fifths of the
longer word have to stay. -/
def closeness? (word candidate : Text) : Option Nat :=
  let a := Text.units word
  let b := Text.units candidate
  let length := max a.length b.length
  if b.length ≤ 1 ∨ mostEdits < length - min a.length b.length then none
  else
    let n := edits a b
    if n ≤ mostEdits ∧ 2 * length < 5 * (length - n) then some n else none

def closest (word : Text) (candidates : List Text) : List Text :=
  let scored := candidates.eraseDups.filterMap fun c => (closeness? word c).map fun n => (n, c)
  match (scored.map Prod.fst).min? with
  | none => []
  | some best => Text.sortByUnits (scored.filterMap fun (n, c) => if n = best then some c else none)

def suggestions (word : Text) (candidates : List Text) : List Text :=
  match Text.after? "--" word with
  | some word => (closest word (candidates.map (·.drop 2))).map fun c => '-' :: '-' :: c
  | none => closest word candidates

def suggestionText (words : List Text) : String :=
  match words with
  | [] => ""
  | [w] => "\n(Did you mean " ++ String.ofList w ++ "?)"
  | ws => "\n(Did you mean one of " ++ ", ".intercalate (ws.map String.ofList) ++ "?)"

end DocHarvest.CommandLine
