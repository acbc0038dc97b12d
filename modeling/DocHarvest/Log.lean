set_option autoImplicit false

namespace DocHarvest

structure Log where
  quiet : Bool
  debug : Bool
  deriving DecidableEq, Repr

namespace Log

inductive Entry where
  | info (message : String)
  | success (message : String)
  | warn (message : String)
  | error (message : String)
  | debug (message : String)
  | heading (title : String)
  | progress (current total item : String)
  deriving DecidableEq, Repr

def lines (log : Log) : Entry → List String
  | .error m => ["✗ " ++ m]
  | .debug m => if log.debug && !log.quiet then ["🔍 " ++ m] else []
  | e =>
    if log.quiet then []
    else
      match e with
      | .info m => ["ℹ " ++ m]
      | .success m => ["✓ " ++ m]
      | .warn m => ["⚠ " ++ m]
      | .heading t => ["", "━━━ " ++ t ++ " ━━━"]
      | .progress current total item => ["[" ++ current ++ "/" ++ total ++ "] " ++ item]
      | _ => []

end Log

end DocHarvest
