import DocHarvest.Text.Basic

set_option autoImplicit false

namespace DocHarvest

structure Settings where
  privatePrefix : Text
  /-- How many lines after a comment block are searched for the definition it documents. -/
  lookahead : Nat
  defaultReturnType : Text
  defaultParamType : Text
  defaultCodeLang : Text
  deriving DecidableEq, Repr

def Settings.default : Settings where
  privatePrefix := "__".toList
  lookahead := 10
  defaultReturnType := "any".toList
  defaultParamType := "any".toList
  defaultCodeLang := "lua".toList

end DocHarvest
