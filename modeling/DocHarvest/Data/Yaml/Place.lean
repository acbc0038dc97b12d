import DocHarvest.Data.Value

set_option autoImplicit false

namespace DocHarvest.Yaml

structure Place where
  rest : Text
  line : Nat
  column : Nat
  indent : Nat
  /-- Whether a tab was skipped on the current line. -/
  tabbed : Bool
  anchors : Fields

def isBreak (c : Char) : Bool := c == '\n' || c == '\r'

def isGap (c : Char) : Bool := c == ' ' || c == '\t'

def isGapOrBreak (c : Char) : Bool := isGap c || isBreak c

def isFlowMark (c : Char) : Bool :=
  c == ',' || c == '[' || c == ']' || c == '\x7b' || c == '\x7d'

namespace Place

def start (t : Text) : Place := ⟨t, 0, 0, 0, false, []⟩

def peek? (p : Place) : Option Char := p.rest.head?

def second? (p : Place) : Option Char := (p.rest.drop 1).head?

def nextIs (p : Place) (c : Char) : Bool := p.peek? == some c

def skip (p : Place) (n : Nat) : Place :=
  { p with rest := p.rest.drop n, column := p.column + n }

def newLine (p : Place) (rest : Text) : Place :=
  { p with rest := rest, line := p.line + 1, column := 0, indent := 0, tabbed := false }

def lineBreak? (p : Place) : Option Place :=
  match p.rest with
  | '\r' :: '\n' :: t => some (p.newLine t)
  | c :: t => if isBreak c then some (p.newLine t) else none
  | [] => none

def upTo (stop : Char → Bool) (p : Place) : Text × Place :=
  let taken := p.rest.takeWhile fun c => !stop c
  (taken, p.skip taken.length)

def countIndent (p : Place) (most : Option Nat) : Place :=
  let spaces := (p.rest.takeWhile (· == ' ')).length
  let n := match most with
    | some m => min spaces m
    | none => spaces
  { p.skip n with indent := n }

end Place

/-- Moves over blanks, line breaks and, if allowed, comments; counts the line breaks. `fuel` bounds
the number of lines. -/
def separationFrom (comments : Bool) : Nat → Nat → Place → Nat × Place
  | 0, breaks, p => (breaks, p)
  | fuel + 1, breaks, p =>
    let gap := p.rest.takeWhile isGap
    let p := { p.skip gap.length with tabbed := p.tabbed || gap.contains '\t' }
    let p := if comments && p.nextIs '#' then (p.upTo isBreak).2 else p
    match p.lineBreak? with
    | some q => separationFrom comments fuel (breaks + 1) (q.countIndent none)
    | none => (breaks, p)

def separation (comments : Bool) (p : Place) : Nat × Place :=
  separationFrom comments (p.rest.length + 1) 0 p

def skipSeparation (p : Place) : Place := (separation true p).2

def atDocumentMark (p : Place) : Bool :=
  p.column == 0 &&
    match p.rest with
    | '-' :: '-' :: '-' :: t | '.' :: '.' :: '.' :: t => t.head?.all isGapOrBreak
    | _ => false

def folded (breaks : Nat) : Text :=
  match breaks with
  | 0 => []
  | 1 => [' ']
  | n + 2 => List.replicate (n + 1) '\n'

end DocHarvest.Yaml
