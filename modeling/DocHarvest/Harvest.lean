import DocHarvest.Config.Load
import DocHarvest.Document
import DocHarvest.Glob.Search
import DocHarvest.Hierarchy
import DocHarvest.Log
import DocHarvest.Problem

set_option autoImplicit false

namespace DocHarvest

/-- What a run is asked to do. An empty `output` or `outDir` asks for nothing. -/
structure Request where
  input : Text
  output : Text
  outDir : Text
  configPath : Option Text
  overrides : Fields
  quiet : Bool
  deriving Repr

inductive RunError where
  | config (e : ConfigError)
  | noFiles (input : Text)
  | file (e : FileError)
  | unread (names : List Text)
  deriving Repr

namespace RunError

def message : RunError → String
  | .config e => e.message
  | .noFiles input => "No files found matching pattern: " ++ String.ofList input
  | .file e => e.message
  | .unread names =>
    toString names.length ++ " file(s) could not be read: " ++
      ", ".intercalate (names.map String.ofList)

def problem (e : RunError) : Problem :=
  match e with
  | .config c => .ofConfigError c
  | e => .error e.message.toList

end RunError

/-- The files that an input stands for. A folder stands for the files in it that `pattern` matches,
and its own name is read as part of that pattern. -/
def sourceFiles (tree : FileTree) (base : Path) (input pattern : Text) : List Path :=
  let trimmed := (input.reverse.dropWhile (· == '/')).reverse
  let pattern := if tree.isFolder (base.resolve input) then trimmed ++ '/' :: pattern else input
  Glob.search tree base pattern

structure Reading where
  file : Text
  result : Except FileError (List Record)

namespace Reading

def ofPath (tree : FileTree) (base : Path) (config : Config) (p : Path) : Reading where
  file := base.relativeTo p
  result := (tree.read p).map fun t => Record.sort config.sort (Record.ofText config.settings t)

def records? (r : Reading) : Option FileRecords :=
  match r.result with
  | .ok records => some ⟨r.file, records⟩
  | .error _ => none

def entries (r : Reading) (current total : Nat) : List Log.Entry :=
  let file := String.ofList r.file
  [.progress (toString current) (toString total) file,
   match r.result with
   | .ok records => .debug ("  " ++ toString records.length ++ " function(s) in " ++ file)
   | .error e => .error ("Failed to read " ++ file ++ ": " ++ e.message)]

end Reading

def Document.ofReadings (rs : List Reading) : Document := ⟨rs.filterMap Reading.records?⟩

def unreadFiles (rs : List Reading) : List Text :=
  rs.filterMap fun r => if r.records?.isNone then some r.file else none

structure Write where
  path : Path
  text : Text
  deriving DecidableEq, Repr

def targetPath (folder : Path) (file : Text) : Path :=
  folder.resolve (Path.withoutExtension file ++ ".json".toList)

def Document.separateWrites (d : Document) (folder : Path) : List Write :=
  d.files.map fun f => ⟨targetPath folder f.file, Json.page f.value⟩

def FileTree.writeAll (tree : FileTree) : List Write → FileTree × Option FileError
  | [] => (tree, none)
  | w :: ws =>
    match tree.write w.path w.text with
    | .ok tree => tree.writeAll ws
    | .error e => (tree, some e)

structure Batch where
  writes : List Write
  note : Log.Entry
  deriving Repr

def Request.batches (r : Request) (base : Path) (d : Document) : List Batch :=
  let separate : List Batch :=
    if r.outDir = [] then []
    else [⟨d.separateWrites (base.resolve r.outDir),
      .success ("Wrote " ++ toString d.files.length ++ " file(s) to " ++ String.ofList r.outDir)⟩]
  let whole : List Batch :=
    if r.output = [] then []
    else [⟨[⟨base.resolve r.output, Json.page d.value⟩],
      .success ("Wrote " ++ String.ofList r.output)⟩]
  separate ++ whole

def Request.page (r : Request) (d : Document) : Text :=
  if r.output = [] ∧ r.outDir = [] then Json.page d.value else []

structure Delivery where
  tree : FileTree
  notes : List Log.Entry
  error : Option FileError
  deriving Repr

def deliver (tree : FileTree) : List Batch → Delivery
  | [] => ⟨tree, [], none⟩
  | b :: bs =>
    match tree.writeAll b.writes with
    | (tree, some e) => ⟨tree, [], some e⟩
    | (tree, none) =>
      let d := deliver tree bs
      { d with notes := b.note :: d.notes }

structure Outcome where
  tree : FileTree
  printed : Text
  log : List Log.Entry
  result : Except RunError Document

def readingLog (rs : List Reading) : List Log.Entry :=
  .heading "Extracting Annotations" :: .info ("Found " ++ toString rs.length ++ " file(s)") ::
    rs.zipIdx.flatMap fun (r, i) => r.entries (i + 1) rs.length

def finish (tree : FileTree) (base : Path) (r : Request) (rs : List Reading) : Outcome :=
  let document := Document.ofReadings rs
  let delivery := deliver tree (r.batches base document)
  let log := readingLog rs ++ delivery.notes
  match delivery.error with
  | some e => ⟨delivery.tree, [], log, .error (.file e)⟩
  | none =>
    let count := "Extracted " ++ toString document.recordCount ++ " function(s) from " ++
      toString document.files.length ++ " file(s)"
    ⟨delivery.tree, r.page document, log ++ [.info count],
      match unreadFiles rs with
      | [] => .ok document
      | names => .error (.unread names)⟩

def harvest (tree : FileTree) (base : Path) (env : Environment) (r : Request) : Outcome :=
  match Config.load tree base env r.configPath r.overrides with
  | .error e => ⟨tree, [], [], .error (.config e)⟩
  | .ok config =>
    match sourceFiles tree base r.input config.pattern with
    | [] => ⟨tree, [], [], .error (.noFiles r.input)⟩
    | files => finish tree base r (files.map (Reading.ofPath tree base config))

def Request.logOf (r : Request) (env : Environment) : Log :=
  ⟨r.quiet, (env.get? "DEBUG").isSome⟩

end DocHarvest
