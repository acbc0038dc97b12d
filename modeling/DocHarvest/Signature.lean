import DocHarvest.Parser

/-!
Function definitions on a line:

    function Array.map(f, xs)
    local function helper(x)
    Array.filter = function(pred, xs)

A definition is recognised by its shape alone. What stands before the keyword may be anything but a
comment or a word of control flow.
-/

set_option autoImplicit false

namespace DocHarvest

structure Signature where
  name : Text
  params : List Text
  line : Int
  deriving DecidableEq, Repr

namespace Signature

def isIdentifier : Text → Bool
  | [] => false
  | c :: t => Text.isNameStart c && t.all Text.isWord

def isNameChar (c : Char) : Bool := Text.isWord c || c == '.'

def isQualifiedName (t : Text) : Bool := (t.splitOn '.').all isIdentifier

def name? (t : Text) : Option (Text × Text) :=
  let run := t.takeWhile isNameChar
  if isQualifiedName run then some (run, t.dropWhile isNameChar) else none

def parenthesised? (t : Text) : Option Text :=
  match Text.dropBlanks t with
  | '(' :: r => if r.contains ')' then some (r.takeWhile (· != ')')) else none
  | _ => none

def splitParams (t : Text) : List Text :=
  ((t.splitOn ',').map Text.trim).filter (· != [])

def declarationHere? (t : Text) : Option (Text × Text) := do
  let t ← Text.after? "function" t
  let t ← Text.afterBlanks? t
  let (name, t) ← name? t
  let params ← parenthesised? t
  return (name, params)

/-- Whether a word can start after the characters of `before`, held in reverse. -/
def atWordStart (before : Text) : Bool :=
  match before with
  | [] => true
  | c :: _ => !Text.isWord c

def declarationFrom? (before : Text) : Text → Option (Text × Text × Text)
  | [] => none
  | c :: t =>
    match if atWordStart before then declarationHere? (c :: t) else none with
    | some (name, params) => some (before.reverse, name, params)
    | none => if Text.isTerminator c then none else declarationFrom? (c :: before) t

def controlWords : List Text :=
  ["if", "then", "elseif", "else", "for", "while", "do", "repeat", "until", "return"].map
    String.toList

def hasControlWord (t : Text) : Bool :=
  (t.splitOnP fun c => !Text.isWord c).any controlWords.contains

def declaration? (line : Text) : Option (Text × Text) :=
  match declarationFrom? [] line with
  | some (before, name, params) =>
    if Text.includes "--" before || hasControlWord before then none else some (name, params)
  | none => none

def assignmentHere? (t : Text) : Option (Text × Text) := do
  let (name, t) ← name? t
  let t ← Text.after? "=" (Text.dropBlanks t)
  let t ← Text.after? "function" (Text.dropBlanks t)
  let params ← parenthesised? t
  return (name, params)

/-- A function assigned to a name. `local` is a keyword only if a name follows it. -/
def assignment? (line : Text) : Option (Text × Text) :=
  let t := Text.dropBlanks line
  (((Text.after? "local" t).bind Text.afterBlanks?).bind assignmentHere?).or (assignmentHere? t)

def ofLine? (line : Text) (number : Int) : Option Signature :=
  ((declaration? line).or (assignment? line)).map fun (name, params) =>
    ⟨name, splitParams params, number⟩

def definition : Parser Signature := fun c =>
  Parser.matching (fun line => ofLine? line c.position) c

theorem definition_progresses : Parser.Progresses definition := fun c a c' h =>
  Parser.matching_progresses (fun line => ofLine? line c.position) c a c' h

def findWithin (lookahead : Nat) : Parser Signature := Parser.scanAhead lookahead definition

theorem findWithin_progresses (lookahead : Nat) : Parser.Progresses (findWithin lookahead) :=
  Parser.scanAhead_progresses lookahead definition_progresses

end Signature

end DocHarvest
