import DocHarvest.Text.Basic

set_option autoImplicit false

namespace DocHarvest.Comment

def plainMarker : String := "--"

def richMarker : String := "---"

inductive Level where
  | plain | rich
  deriving DecidableEq, Repr

def split? (line : Text) : Option (Level × Text) :=
  match Text.dropBlanks line with
  | '-' :: '-' :: '-' :: t => some (.rich, t)
  | '-' :: '-' :: t => some (.plain, t)
  | _ => none

def level? (line : Text) : Option Level := (split? line).map Prod.fst

def body? (line : Text) : Option Text := (split? line).map Prod.snd

def isComment (line : Text) : Bool := (split? line).isSome

def isBlankLine (line : Text) : Bool := Text.allBlank line

end DocHarvest.Comment
