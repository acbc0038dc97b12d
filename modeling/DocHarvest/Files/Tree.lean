import DocHarvest.Files.Path

set_option autoImplicit false

namespace DocHarvest

inductive Entry where
  -- A file without a text may be neither read nor written.
  | file (text : Option Text)
  | folder
  | link (target : Text)
  deriving DecidableEq, Repr

inductive FileFault where
  | missing
  | notFolder
  | isFolder
  | taken
  | tooManyLinks
  | denied
  deriving DecidableEq, Repr

def FileFault.message : FileFault → String
  | .missing => "ENOENT: no such file or directory"
  | .notFolder => "ENOTDIR: not a directory"
  | .isFolder => "EISDIR: illegal operation on a directory"
  | .taken => "EEXIST: file already exists"
  | .tooManyLinks => "ELOOP: too many symbolic links encountered"
  | .denied => "EACCES: permission denied"

/-- What was tried on a file, and where. Once a file is open its path is no longer told. -/
inductive Attempt where
  | opening (path : Path)
  | reading
  | makingFolder (path : Path)
  deriving DecidableEq, Repr

def Attempt.message : Attempt → String
  | .opening p => "open '" ++ String.ofList p.text ++ "'"
  | .reading => "read"
  | .makingFolder p => "mkdir '" ++ String.ofList p.text ++ "'"

structure FileError where
  fault : FileFault
  attempt : Attempt
  deriving DecidableEq, Repr

def FileError.message (e : FileError) : String := e.fault.message ++ ", " ++ e.attempt.message

structure FileTree where
  entries : List (Path × Entry)
  deriving Repr

namespace FileTree

def empty : FileTree := ⟨[]⟩

def get? (tree : FileTree) (p : Path) : Option Entry :=
  if p = .root then some .folder else tree.entries.lookup p

def putEntry (p : Path) (e : Entry) : List (Path × Entry) → List (Path × Entry)
  | [] => [(p, e)]
  | (q, f) :: rest => if q = p then (q, e) :: rest else (q, f) :: putEntry p e rest

def put (tree : FileTree) (p : Path) (e : Entry) : FileTree := ⟨putEntry p e tree.entries⟩

theorem lookup_putEntry (p q : Path) (e : Entry) (entries : List (Path × Entry)) :
    (putEntry p e entries).lookup q = if q = p then some e else entries.lookup q := by
  induction entries with
  | nil => grind [putEntry]
  | cons entry rest ih =>
    obtain ⟨r, f⟩ := entry
    grind [putEntry]

theorem get?_put (tree : FileTree) {p : Path} (hp : p ≠ .root) (q : Path) (e : Entry) :
    (tree.put p e).get? q = if q = p then some e else tree.get? q := by
  by_cases hq : q = .root
  · subst hq
    simp [get?, Ne.symm hp]
  · simp [get?, put, hq, lookup_putEntry]

def place (tree : FileTree) (p : Path) (e : Entry) : FileTree :=
  let above := (List.range p.names.length).map fun n => (⟨p.names.take n⟩ : Path)
  let missing := above.filter fun q => (tree.get? q).isNone
  (missing.foldl (fun t q => t.put q .folder) tree).put p e

/-- Where names lead from `place` when every link is followed, and what stands there. The last name
may be free; a name before it that is free, or is a file, is a fault. -/
def locate (tree : FileTree) : Nat → Path → List Text → Except FileFault (Path × Option Entry)
  | _, place, [] => .ok (place, tree.get? place)
  | links, place, name :: rest =>
    if name = [] ∨ name = ['.'] ∨ name = ['.', '.'] then locate tree links (place.step name) rest
    else
      let here := place.child name
      match tree.get? here with
      | none => if rest = [] then .ok (here, none) else .error .missing
      | some .folder => locate tree links here rest
      | some (.file t) => if rest = [] then .ok (here, some (.file t)) else .error .notFolder
      | some (.link target) =>
        match _h : links with
        | 0 => .error .tooManyLinks
        | fewer + 1 =>
          let start := if target.head? = some '/' then Path.root else place
          locate tree fewer start (target.splitOn '/' ++ rest)
termination_by links _ names => (links, names.length)

def linkLimit : Nat := 40

def find (tree : FileTree) (p : Path) : Except FileFault (Path × Option Entry) :=
  tree.locate linkLimit .root p.names

def target? (tree : FileTree) (p : Path) : Option Entry :=
  match tree.find p with
  | .ok (_, e) => e
  | .error _ => none

/-- What stands at a path itself: links above it are followed, and a link at its end is not. -/
def entry? (tree : FileTree) (p : Path) : Option Entry :=
  match p.names.getLast? with
  | none => some .folder
  | some name =>
    match tree.find p.parent with
    | .ok (folder, some .folder) => tree.get? (folder.child name)
    | _ => none

def exists? (tree : FileTree) (p : Path) : Bool := (tree.target? p).isSome

def isFolder (tree : FileTree) (p : Path) : Bool := tree.target? p == some .folder

def folder? (tree : FileTree) (p : Path) : Option Path :=
  match tree.find p with
  | .ok (q, some .folder) => some q
  | _ => none

def children (tree : FileTree) (p : Path) : List (Text × Entry) :=
  match tree.folder? p with
  | none => []
  | some folder => tree.entries.filterMap fun (q, e) =>
    match q.names.getLast? with
    | some name => if q.parent = folder then some (name, e) else none
    | none => none

def foldersBelow (tree : FileTree) (p : Path) : List (List Text) :=
  match tree.folder? p with
  | none => []
  | some folder => tree.entries.filterMap fun (q, e) =>
    if e = .folder then (folder.names.isPrefixOf? q.names).filter (· ≠ []) else none

def read (tree : FileTree) (p : Path) : Except FileError Text :=
  match tree.find p with
  | .ok (_, some (.file (some t))) => .ok t
  | .ok (_, some (.file none)) => .error ⟨.denied, .opening p⟩
  | .ok (_, some _) => .error ⟨.isFolder, .reading⟩
  | .ok (_, none) => .error ⟨.missing, .opening p⟩
  | .error fault => .error ⟨fault, .opening p⟩

def makeFolders (tree : FileTree) (above : Path) : List Text → Except FileFault FileTree
  | [] => .ok tree
  | name :: rest =>
    let here := above.child name
    match tree.entry? here, tree.find here with
    | none, .ok (place, _) => makeFolders (tree.put place .folder) here rest
    | some _, .ok (_, some .folder) => makeFolders tree here rest
    | some _, .ok (_, some _) => .error (if rest = [] then .taken else .notFolder)
    | some _, .ok (_, none) => .error .missing
    | _, .error fault => .error fault

def write (tree : FileTree) (p : Path) (t : Text) : Except FileError FileTree :=
  match tree.makeFolders .root p.parent.names with
  | .error fault => .error ⟨fault, .makingFolder p.parent⟩
  | .ok tree =>
    match tree.find p with
    | .ok (_, some .folder) => .error ⟨.isFolder, .opening p⟩
    | .ok (_, some (.file none)) => .error ⟨.denied, .opening p⟩
    | .ok (place, _) => .ok (tree.put place (.file (some t)))
    | .error fault => .error ⟨fault, .opening p⟩

def changes (before after : FileTree) : List (Path × Text) :=
  after.entries.filterMap fun (p, e) =>
    match e with
    | .file (some t) => if before.get? p = some (.file (some t)) then none else some (p, t)
    | _ => none

end FileTree

end DocHarvest
