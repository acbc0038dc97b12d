import DocHarvest.Data.Yaml.Node

set_option autoImplicit false

namespace DocHarvest.Yaml

structure Directives where
  version : Bool
  any : Bool

def isVersion (t : Text) : Bool :=
  let major := t.takeWhile Text.isDigit
  match t.dropWhile Text.isDigit with
  | '.' :: minor => Number.ofDigits 10 major == 1 && minor != [] && minor.all Text.isDigit
  | _ => false

def words (t : Text) : List Text := (t.splitOnP isGap).filter (· != [])

def arguments (t : Text) : List Text := (words t).takeWhile fun w => w.head? != some '#'

def directives? : Nat → Directives → Place → Option (Directives × Place)
  | 0, _, _ => none
  | fuel + 1, d, p =>
    let p := skipSeparation p
    if p.indent != 0 || !p.nextIs '%' then some (d, p)
    else do
      let (name, q) := (p.skip 1).upTo isGapOrBreak
      if name = [] then none
      let (rest, r) := q.upTo isBreak
      let isYaml := name == "YAML".toList
      if isYaml then
        match arguments rest with
        | [v] => if d.version || !isVersion v then none
        | _ => none
      directives? fuel ⟨d.version || isYaml, true⟩ ((r.lineBreak?).getD r)

def startsDocument (p : Place) : Bool := p.indent == 0 && (Text.after? "---" p.rest).isSome

def document? (p : Place) : Option (Value × Bool × Place) := do
  let fuel := 12 * (p.rest.length + 2)
  let (d, p) ← directives? fuel ⟨false, false⟩ { p with anchors := [] }
  let p := skipSeparation p
  let p ←
    if startsDocument p then some (skipSeparation (p.skip 3))
    else if d.any then none
    else some p
  let (node, q) ← node? fuel ((p.indent : Int) - 1) .blockOut false true p
  let q := skipSeparation q
  if atDocumentMark q then
    let r := if q.nextIs '.' then skipSeparation (q.skip 3) else q
    return (node.value, true, r)
  else if q.rest.length ≤ 1 then return (node.value, false, q)
  else none

def documents? : Nat → List Value → Place → Option (List Value)
  | 0, _, _ => none
  | fuel + 1, read, p =>
    if p.rest.length ≤ 1 then some read.reverse
    else
      match document? p with
      | none => none
      | some (v, _, q) => documents? fuel (v :: read) q

/-- The text with a line break at its end and without a byte order mark. -/
def prepared (t : Text) : Text :=
  let t := if t != [] && !t.getLast?.any isBreak then t ++ ['\n'] else t
  match t with
  | '\uFEFF' :: r => r
  | _ => t

def read? (t : Text) : Option Value :=
  let t := prepared t
  if t.contains '\x00' then none
  else
    match documents? (t.length + 2) [] ((Place.start t).countIndent none) with
    | some [] => some .null
    | some [v] => some v
    | _ => none

end DocHarvest.Yaml
