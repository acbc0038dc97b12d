import DocHarvest.Hierarchy
import DocHarvest.Settings.Key

set_option autoImplicit false

namespace DocHarvest.Settings

inductive Issue where
  | wrongType (key : Key) (given : Value)
  | empty (key : Key)
  | notWhole
  | negative
  | notOneWord
  | notMode (given : Text)
  | unknownKeys (keys : List Text)
  deriving Repr

namespace Issue

def modes : String := " | ".intercalate (SortMode.all.map fun m => "'" ++ m.name ++ "'")

def expected : Key → String
  | .lookahead => "number"
  | .sort => modes
  | _ => "string"

def key? : Issue → Option Key
  | .wrongType key _ => some key
  | .empty key => some key
  | .notWhole => some .lookahead
  | .negative => some .lookahead
  | .notOneWord => some .defaultCodeLang
  | .notMode _ => some .sort
  | .unknownKeys _ => none

def detail : Issue → String
  | .wrongType key given => "Expected " ++ expected key ++ ", received " ++ given.typeName
  | .empty key => key.name ++ " must not be empty"
  | .notWhole => "lookahead must be an integer"
  | .negative => "lookahead must not be negative"
  | .notOneWord => "defaultCodeLang must be a single word"
  | .notMode given =>
    "Invalid enum value. Expected " ++ modes ++ ", received '" ++ String.ofList given ++ "'"
  | .unknownKeys keys =>
    "Unrecognized key(s) in object: " ++
      ", ".intercalate (keys.map fun k => "'" ++ String.ofList k ++ "'")

def message (i : Issue) : String :=
  match i.key? with
  | some key => key.name ++ ": " ++ i.detail
  | none => i.detail

end Issue

def fileIssues (k : Key) (v : Value) : List Issue :=
  match k, v with
  | .lookahead, .number .nan => [.wrongType k v]
  | .lookahead, .number _ => []
  | .lookahead, _ => [.wrongType k v]
  | .pattern, .text t => if t = [] then [.empty k] else []
  | .sort, .text t => if (SortMode.ofName? t).isSome then [] else [.notMode t]
  | _, .text _ => []
  | _, _ => [.wrongType k v]

def ruleIssues (k : Key) (v : Value) : List Issue :=
  match k, v with
  | .lookahead, .number .nan => [.wrongType k v]
  | .lookahead, .number x =>
    (if x.isWhole then [] else [.notWhole]) ++ (if x.isNegative then [.negative] else [])
  | .lookahead, _ => [.wrongType k v]
  | .privatePrefix, .text t => if t = [] then [.empty k] else []
  | .defaultReturnType, .text t | .defaultParamType, .text t =>
    if Text.trim t = [] then [.empty k] else []
  | .defaultCodeLang, .text t => if t != [] && t.all Text.isWord then [] else [.notOneWord]
  | _, .text _ => []
  | _, _ => [.wrongType k v]

def issuesAmong (keys : List Key) (check : Key → Value → List Issue) (fields : Fields) :
    List Issue :=
  keys.flatMap fun k => ((k.get? fields).map (check k)).getD []

def unknownKeyIssues (fields : Fields) : List Issue :=
  match fields.keys.filter fun name => !(Key.all.map Key.text).contains name with
  | [] => []
  | names => [.unknownKeys names]

def textOr (k : Key) (fields : Fields) (default : Text) : Text :=
  match k.get? fields with
  | some (.text t) => t
  | _ => default

def lookaheadOr (fields : Fields) (default : Nat) : Nat :=
  match Key.lookahead.get? fields with
  | some (.number x) => (x.floor?.getD 0).toNat
  | _ => default

def resolve (options : Fields) : Except (List Issue) Settings :=
  match issuesAmong Key.ofRules ruleIssues options with
  | [] => .ok
    { privatePrefix := textOr .privatePrefix options default.privatePrefix
      lookahead := lookaheadOr options default.lookahead
      defaultReturnType := Text.trim (textOr .defaultReturnType options default.defaultReturnType)
      defaultParamType := Text.trim (textOr .defaultParamType options default.defaultParamType)
      defaultCodeLang := textOr .defaultCodeLang options default.defaultCodeLang }
  | issues => .error issues

end DocHarvest.Settings
