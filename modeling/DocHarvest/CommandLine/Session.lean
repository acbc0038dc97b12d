import DocHarvest.CommandLine.Plan

set_option autoImplicit false

namespace DocHarvest.CommandLine

structure Session where
  exitCode : Nat
  printed : Text
  shown : List String
  tree : FileTree
  deriving Repr

def showErrors (messages : List String) : List String :=
  messages.flatMap fun m => Log.lines ⟨false, false⟩ (.error m)

def extractSession (tree : FileTree) (base : Path) (env : Environment) (r : Request) : Session :=
  let outcome := harvest tree base env r
  let shown := outcome.log.flatMap (r.logOf env).lines
  match outcome.result with
  | .ok _ => ⟨0, outcome.printed, shown, outcome.tree⟩
  | .error e =>
    ⟨1, outcome.printed, shown ++ showErrors (e.problem.lines.map String.ofList), outcome.tree⟩

def session (tree : FileTree) (base : Path) (env : Environment) (args : List Text) : Session :=
  let line (s : String) : Text := s.toList ++ ['\n']
  match Plan.ofArgs args with
  | .version => ⟨0, line versionText, [], tree⟩
  | .help topic => ⟨0, line topic.text, [], tree⟩
  | .usage => ⟨1, [], showErrors [Topic.program.text], tree⟩
  | .refuse r => ⟨1, [], showErrors [r.message], tree⟩
  | .extract r => extractSession tree base env r

end DocHarvest.CommandLine
