import DocHarvest.Config

set_option autoImplicit false

namespace DocHarvest

inductive Problem where
  | configuration (message : Text) (issues : List Text)
  | error (message : Text)
  | value (v : Value)
  | nothing
  deriving Repr

namespace Problem

def ofConfigError (e : ConfigError) : Problem :=
  .configuration e.message.toList (e.issues.map String.toList)

/-- An error known only by its name and its properties: one with the name of configuration errors
and a list of issues counts as one. -/
def ofNamed (name message : Text) (issues : Option Value) : Problem :=
  match issues with
  | some (.list items) =>
    if name = "ConfigurationError".toList then .configuration message (items.map Value.display)
    else .error message
  | _ => .error message

def isConfiguration : Problem → Bool
  | .configuration .. => true
  | _ => false

def message : Problem → Text
  | .configuration m _ => m
  | .error m => m
  | .value v => v.display
  | .nothing => "undefined".toList

def lines (p : Problem) : List Text :=
  match p with
  | .configuration m (i :: j :: rest) =>
    m.takeWhile (· != ':') :: (i :: j :: rest).map fun issue => "  - ".toList ++ issue
  | _ => [p.message]

end Problem

end DocHarvest
