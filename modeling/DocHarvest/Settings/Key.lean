import DocHarvest.Data.Value

set_option autoImplicit false

namespace DocHarvest.Settings

inductive Key where
  | privatePrefix | lookahead | defaultReturnType | defaultParamType | defaultCodeLang
  | pattern | sort
  deriving DecidableEq, Repr

namespace Key

def ofRules : List Key :=
  [.privatePrefix, .lookahead, .defaultReturnType, .defaultParamType, .defaultCodeLang]

def all : List Key := ofRules ++ [.pattern, .sort]

def name : Key → String
  | .privatePrefix => "privatePrefix"
  | .lookahead => "lookahead"
  | .defaultReturnType => "defaultReturnType"
  | .defaultParamType => "defaultParamType"
  | .defaultCodeLang => "defaultCodeLang"
  | .pattern => "include"
  | .sort => "sort"

def text (k : Key) : Text := k.name.toList

def get? (k : Key) (fields : Fields) : Option Value := Fields.get? fields k.text

end Key

end DocHarvest.Settings
