import DocHarvest.Config
import DocHarvest.Data.Json.Reader
import DocHarvest.Data.Yaml.Reader
import DocHarvest.Files.Tree
import DocHarvest.Number.Reader

set_option autoImplicit false

namespace DocHarvest

abbrev Environment := List (Text × Text)

namespace Environment

def get? (env : Environment) (name : String) : Option Text :=
  (env.lookup name.toList).filter (· ≠ [])

end Environment

namespace Config

def settingVariables : List (Settings.Key × String) :=
  [(.privatePrefix, "DOCSCAN_PRIVATE_PREFIX"), (.lookahead, "DOCSCAN_LOOKAHEAD"),
   (.defaultReturnType, "DOCSCAN_DEFAULT_RETURN"), (.pattern, "DOCSCAN_INCLUDE"),
   (.sort, "DOCSCAN_SORT")]

def variableValue (key : Settings.Key) (t : Text) : Value :=
  if key = .lookahead then .number (Number.ofText t) else .text t

def ofEnvironment (env : Environment) : Fields :=
  settingVariables.filterMap fun (key, name) =>
    (env.get? name).map fun t => (key.text, variableValue key t)

def overridable : List (Settings.Key × String) :=
  [(.privatePrefix, "privatePrefix"), (.lookahead, "lookahead"),
   (.defaultReturnType, "defaultReturn"), (.pattern, "include"), (.sort, "sort")]

def ofOverrides (overrides : Fields) : Fields :=
  overridable.filterMap fun (key, name) =>
    (Fields.get? overrides name.toList).map fun v => (key.text, v)

def merge (file : Fields) (env : Environment) (overrides : Fields) : Fields :=
  Fields.overlay (ofOverrides overrides) (Fields.overlay (ofEnvironment env) file)

def readValue (tree : FileTree) (p : Path) : Option Value :=
  match tree.read p with
  | .error _ => none
  | .ok t => if p.extension = ".json".toList then Json.read? t else Yaml.read? t

/-- The settings in a file. A file that holds nothing, or a date, gives none. -/
def readFile (tree : FileTree) (p : Path) : Except ConfigError Fields :=
  match readValue tree p with
  | none => .error (.unreadable p.text)
  | some (.record fields) => .ok fields
  | some .null | some (.date _) => .ok []
  | some _ => .error (.notMapping p.text)

/-- The settings file of a run: the one named, which has to exist, or else the first of the usual
names that does. -/
def fileFields (tree : FileTree) (base : Path) (named : Option Text) : Except ConfigError Fields :=
  match named.filter (· ≠ []) with
  | some t =>
    if tree.exists? (base.resolve t) then readFile tree (base.resolve t) else .error (.notFound t)
  | none =>
    match (fileNames.map fun name => base.child name.toList).find? tree.exists? with
    | some p => readFile tree p
    | none => .ok []

def load (tree : FileTree) (base : Path) (env : Environment) (named : Option Text)
    (overrides : Fields) : Except ConfigError Config := do
  let file ← fileFields tree base named
  validate (merge file env overrides) named

end Config

end DocHarvest
