import DocHarvest.Settings.Check

set_option autoImplicit false

namespace DocHarvest

structure Config where
  settings : Settings
  pattern : Text
  sort : SortMode
  deriving DecidableEq, Repr

inductive ConfigError where
  | invalidRules (issues : List Settings.Issue)
  | invalidFile (issues : List Settings.Issue) (source : Option Text)
  | notFound (path : Text)
  | unreadable (path : Text)
  | notMapping (path : Text)
  deriving Repr

namespace ConfigError

def issues : ConfigError → List String
  | .invalidRules is | .invalidFile is _ => is.map Settings.Issue.message
  | _ => []

def source : ConfigError → Option Text
  | .invalidRules _ => none
  | .invalidFile _ source => source
  | .notFound path | .unreadable path | .notMapping path => some path

def message (e : ConfigError) : String :=
  match e with
  | .invalidRules _ => "Invalid engine configuration: " ++ "; ".intercalate e.issues
  | .invalidFile _ _ => "Invalid configuration: " ++ "; ".intercalate e.issues
  | .notFound path => "Config file not found: " ++ String.ofList path
  | .unreadable path => "Failed to read config file " ++ String.ofList path
  | .notMapping path => "Config file " ++ String.ofList path ++ " must contain a mapping"

end ConfigError

namespace Config

def defaultInclude : Text := "**/*.lua".toList

def defaultSort : SortMode := .source

def fileNames : List String := ["docscan.config.yaml", "docscan.config.yml", "docscan.config.json"]

def resolveSettings (options : Fields) : Except ConfigError Settings :=
  match Settings.resolve options with
  | .ok s => .ok s
  | .error is => .error (.invalidRules is)

def validate (merged : Fields) (source : Option Text) : Except ConfigError Config :=
  match Settings.issuesAmong Settings.Key.all Settings.fileIssues merged ++
      Settings.unknownKeyIssues merged with
  | [] => do
    let settings ← resolveSettings merged
    let mode := SortMode.ofName? (Settings.textOr .sort merged [])
    return ⟨settings, Settings.textOr .pattern merged defaultInclude, mode.getD defaultSort⟩
  | issues => .error (.invalidFile issues source)

end Config

end DocHarvest
