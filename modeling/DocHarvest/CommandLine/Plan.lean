import DocHarvest.CommandLine.Flag
import DocHarvest.CommandLine.Suggestion
import DocHarvest.Harvest
import DocHarvest.Number.Reader

set_option autoImplicit false

namespace DocHarvest.CommandLine

inductive Refusal where
  | missingValue (f : Flag)
  | notInteger (f : Flag) (value : Text)
  | unknownOption (arg : Text) (known : List Flag)
  | unknownCommand (name : Text)
  | missingInput
  deriving DecidableEq, Repr

inductive Plan where
  | version
  | help (topic : Topic)
  | usage
  | refuse (r : Refusal)
  | extract (r : Request)
  deriving Repr

def commandNames : List Text := ["extract".toList, "help".toList]

namespace Refusal

def message : Refusal → String
  | .missingValue f => "option '" ++ f.usage ++ "' argument missing"
  | .notInteger f value =>
    "option '" ++ f.usage ++ "' argument '" ++ String.ofList value ++ "' is invalid. Not an integer."
  | .unknownOption arg known =>
    let names := helpFlag.toList :: known.map fun f => f.long.toList
    let similar := if (Text.after? "--" arg).isSome then suggestions arg names else []
    "unknown option '" ++ String.ofList arg ++ "'" ++ suggestionText similar
  | .unknownCommand name =>
    "unknown command '" ++ String.ofList name ++ "'" ++
      suggestionText (suggestions name commandNames)
  | .missingInput => "missing required argument 'input'"

end Refusal

inductive Shape where
  | whole (f : Flag)
  | joined (f : Flag) (value : Text)
  | stacked (f : Flag) (left : Text)
  | other
  deriving DecidableEq, Repr

def longShape (flags : List Flag) (arg : Text) : Shape :=
  match arg.span (· != '=') with
  | (name, '=' :: value) =>
    match flags.find? fun f => f.takesValue && name = f.long.toList with
    | some f => .joined f value
    | none => .other
  | _ => .other

def shape (flags : List Flag) (arg : Text) : Shape :=
  match flags.find? (·.isNamed arg) with
  | some f => .whole f
  | none =>
    match arg with
    | '-' :: c :: d :: rest =>
      match if c == '-' then none else flags.find? (·.short? = some c) with
      | some f => if f.takesValue then .joined f (d :: rest) else .stacked f ('-' :: d :: rest)
      | none => longShape flags arg
    | _ => .other

theorem longShape_ne_stacked (flags : List Flag) (arg : Text) (f : Flag) (left : Text) :
    longShape flags arg ≠ .stacked f left := by
  unfold longShape
  split
  · split <;> simp
  · simp

theorem length_of_shape {flags : List Flag} {arg left : Text} {f : Flag}
    (h : shape flags arg = .stacked f left) : left.length < arg.length := by
  unfold shape at h
  split at h
  · simp at h
  · split at h
    · split at h
      · split at h
        · simp at h
        · simp only [Shape.stacked.injEq] at h
          simp [← h.2]
      · exact absurd h (longShape_ne_stacked _ _ _ _)
    · simp at h

structure Scan where
  given : List (Flag × Text)
  operands : List Text
  unknown : List Text
  deriving Repr

def looksLikeFlag (arg : Text) : Bool := arg.head? == some '-' && arg.length > 1

def accept (f : Flag) (value : Text) : Except Plan (Flag × Text) :=
  match f with
  | .version => .error .version
  | .lookahead =>
    if (Number.ofText value).isWhole then .ok (f, value) else .error (.refuse (.notInteger f value))
  | f => .ok (f, value)

def Scan.give (entry : Flag × Text) (s : Scan) : Scan := { s with given := entry :: s.given }

/-- Sorts arguments into known flags, operands and what is unknown. After an unknown flag all that
is no known flag is unknown; two dashes end the flags. -/
def scan (flags : List Flag) (pastUnknown : Bool) : List Text → Except Plan Scan
  | [] => .ok ⟨[], [], []⟩
  | arg :: rest =>
    if arg = ['-', '-'] then .ok (if pastUnknown then ⟨[], [], arg :: rest⟩ else ⟨[], rest, []⟩)
    else
      match _h : shape flags arg with
      | .whole f =>
        if f.takesValue then
          match rest with
          | [] => .error (.refuse (.missingValue f))
          | value :: rest => do
            let entry ← accept f value
            return (← scan flags pastUnknown rest).give entry
        else do
          let entry ← accept f []
          return (← scan flags pastUnknown rest).give entry
      | .joined f value => do
        let entry ← accept f value
        return (← scan flags pastUnknown rest).give entry
      | .stacked f left => do
        let entry ← accept f []
        return (← scan flags pastUnknown (left :: rest)).give entry
      | .other =>
        if pastUnknown || looksLikeFlag arg then do
          let s ← scan flags true rest
          return { s with unknown := arg :: s.unknown }
        else do
          let s ← scan flags false rest
          return { s with operands := arg :: s.operands }
termination_by args => args.flatten.length + args.length
decreasing_by
  all_goals simp_wf
  all_goals first
    | exact length_of_shape _h
    | grind

def Scan.value? (s : Scan) (f : Flag) : Option Text := s.given.reverse.lookup f

def Scan.request (s : Scan) (input : Text) : Request where
  input := input
  output := (s.value? .output).getD []
  outDir := (s.value? .outDir).getD []
  configPath := s.value? .config
  overrides :=
    let texts : List (String × Option Value) :=
      [("privatePrefix", (s.value? .privatePrefix).map .text),
       ("lookahead", (s.value? .lookahead).map fun t => .number (Number.ofText t)),
       ("defaultReturn", (s.value? .defaultReturn).map .text),
       ("include", (s.value? .pattern).map .text),
       ("sort", (s.value? .sort).map .text)]
    texts.filterMap fun (key, v) => v.map fun v => (key.toList, v)
  quiet := (s.value? .quiet).isSome

namespace Plan

def ofExtract (operands args : List Text) : Plan :=
  match scan Flag.ofExtract false args with
  | .error plan => plan
  | .ok s =>
    if s.unknown.any isHelpFlag then .help .extract
    else
      match s.unknown, operands ++ s.operands with
      | arg :: _, _ => .refuse (.unknownOption arg (Flag.ofExtract ++ Flag.ofProgram))
      | [], [] => .refuse .missingInput
      | [], input :: _ => .extract (s.request input)

def ofHelp (operands : List Text) : Plan :=
  let name := operands.headD []
  if name = [] then .help .program
  else if name = "extract".toList then .help .extract
  else .usage

def ofArgs (args : List Text) : Plan :=
  match scan Flag.ofProgram false args with
  | .error plan => plan
  | .ok s =>
    let name := s.operands.headD []
    if name = "extract".toList then ofExtract (s.operands.drop 1) s.unknown
    else if name = "help".toList then ofHelp (s.operands.drop 1)
    else if s.unknown.any isHelpFlag then .help .program
    else
      match s.operands, s.unknown with
      | name :: _, _ => .refuse (.unknownCommand name)
      | [], arg :: _ => .refuse (.unknownOption arg Flag.ofProgram)
      | [], [] => .usage

end Plan

end DocHarvest.CommandLine
