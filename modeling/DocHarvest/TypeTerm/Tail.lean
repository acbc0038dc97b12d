import DocHarvest.Text.Units
import DocHarvest.TypeTerm.Reading

set_option autoImplicit false

namespace DocHarvest

structure Tail where
  type : Text
  description : Text
  optional : Bool
  deriving DecidableEq, Repr

namespace Tail

open TypeTerm

def descriptionOf : List Token → Text
  | [] => []
  | t :: ts => if t.kind = .hash then phrase ts else phrase (t :: ts)

def parse (t : Text) : Except Fault Tail :=
  match readTerm (tokens t) with
  | .error e => .error e
  | .ok r => .ok ⟨phrase r.taken, descriptionOf r.rest, r.optional⟩

def splitAtHash (t : Text) : Tail :=
  let type := Text.trim (t.takeWhile (· != '#'))
  ⟨type, Text.trim ((t.dropWhile (· != '#')).drop 1), type.contains '?'⟩

def ofText (t : Text) : Tail :=
  match parse t with
  | .ok tail => tail
  | .error _ => splitAtHash t

end Tail

namespace TypeTerm

def Bracket.name : Bracket → String
  | .round => "Paren"
  | .angle => "Angle"
  | .square => "Square"
  | .curly => "Curly"

def Kind.name : Kind → String
  | .opening b => "L" ++ b.name
  | .closing b => "R" ++ b.name
  | .hash => "Hash"
  | .comma => "Comma"
  | .colon => "Colon"
  | .pipe => "Pipe"
  | .question => "Question"
  | .word => "Word"
  | .funKeyword => "FunKeyword"

def ruleNames : List String :=
  ["annotationTail", "typeExpression", "unionMember", "primaryType", "parenGroup", "angleGroup",
   "squareGroup", "curlyGroup", "groupItem"]

def Fault.message (f : Fault) : String :=
  let found := String.ofList f.found
  match f.wanted with
  | .token k => "Expecting token of type --> " ++ k.name ++ " <-- but found --> '" ++ found ++ "' <--"
  | .member =>
    "Expecting: one of these possible Token sequences:\n  1. [FunKeyword]\n  2. [Word]\n" ++
      "  3. [LParen]\n  4. [LCurly]\nbut found: '" ++ found ++ "'"

/-- The warning for a tail whose type breaks off; a long tail is cut to sixty units. -/
def Fault.warning (tail : Text) (f : Fault) : String :=
  let shown := if 60 < Text.unitLength tail then Text.takeUnits 60 tail ++ "...".toList else tail
  "Failed to parse annotation type: \"" ++ String.ofList shown ++ "\"\n  Error: " ++ f.message ++
    "\n  Expected format: <type> [# description]"

end TypeTerm

end DocHarvest
