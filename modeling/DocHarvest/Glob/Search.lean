import DocHarvest.Files.Tree
import DocHarvest.Glob.Braces
import DocHarvest.Glob.Segment

/-!
The files of a tree that a pattern matches. Only files and links are found, never folders. A plain
name is followed wherever it leads; a wildcard goes through the entries of a folder, links included;
`**` goes through folders below a folder but not into names that start with a dot. It goes through
a link only if the pattern has a name before the `**`, and then only one folder deep.
-/

set_option autoImplicit false

namespace DocHarvest.Glob

def starStar : Text := ['*', '*']

def squeeze : List Text → List Text
  | [] => []
  | first :: rest =>
    first :: rest.dropLast.filter (fun name => name ≠ [] && name ≠ ['.']) ++ rest.getLast?.toList

def isCancelled (name : Text) : Bool :=
  name ≠ [] && name ≠ ['.'] && name ≠ ['.', '.'] && name ≠ starStar

/-- Cancels names against two dots. `kept` holds the names so far in reverse. A dot is left in front
of a `**` that would otherwise become the first name. -/
def cancelUps : List Text → List Text → List Text
  | kept, [] => kept.reverse
  | [], name :: rest => cancelUps [name] rest
  | last :: kept, name :: rest =>
    if name = ['.', '.'] && isCancelled last then
      cancelUps (if kept = [] && rest.head? = some starStar then [['.']] else kept) rest
    else cancelUps (name :: last :: kept) rest

def joinStars : List Text → List Text
  | a :: b :: rest =>
    if a = starStar && b = starStar then joinStars (b :: rest) else a :: joinStars (b :: rest)
  | names => names

structure Route where
  absolute : Bool
  segments : List Segment
  deriving Repr

def Route.ofText (t : Text) : Route :=
  match joinStars (cancelUps [] (squeeze (t.splitOn '/'))) with
  | [] :: name :: rest => ⟨true, (name :: rest).map Segment.ofText⟩
  | names => ⟨false, names.map Segment.ofText⟩

def isHidden (name : Text) : Bool := name.head? == some '.'

def reached (tree : FileTree) (p : Path) : List Path :=
  if tree.isFolder p then
    p :: (((tree.foldersBelow p).filter fun names => !names.any isHidden).map p.walk)
  else []

def linksIn (tree : FileTree) (p : Path) : List Path :=
  (tree.children p).filterMap fun (name, e) =>
    match e with
    | .link _ => if isHidden name then none else some (p.child name)
    | _ => none

def keepFile (p : Path) : Option Entry → List Path
  | some .folder | none => []
  | some _ => [p]

/-- The files that the rest of a route leads to from `p`. `first` says that no name came before. -/
def follow (tree : FileTree) (first : Bool) (p : Path) : List Segment → List Path
  | [] => []
  | [.name n] =>
    if n = [] ∨ n = ['.'] ∨ n = ['.', '.'] then [] else keepFile (p.child n) (tree.entry? (p.child n))
  | .name n :: rest => follow tree false (p.step n) rest
  | [.wild ps] =>
    (tree.children p).flatMap fun (name, e) =>
      if matchesName ps name then keepFile (p.child name) (some e) else []
  | .wild ps :: rest =>
    (tree.children p).flatMap fun (name, e) =>
      match e with
      | .file _ => []
      | _ => if matchesName ps name then follow tree false (p.child name) rest else []
  | [.globstar] =>
    keepFile p (tree.entry? p) ++ (reached tree p).flatMap fun q =>
      (tree.children q).flatMap fun (name, e) =>
        if isHidden name then [] else keepFile (q.child name) (some e)
  | .globstar :: rest =>
    (reached tree p).flatMap fun q =>
      follow tree false q rest ++
        if first then [] else (linksIn tree q).flatMap fun link => follow tree false link rest

def search (tree : FileTree) (base : Path) (pattern : Text) : List Path :=
  let found := (expand pattern).flatMap fun t =>
    let route := Route.ofText t
    if route.absolute then follow tree false .root route.segments
    else follow tree true base route.segments
  found.eraseDups.mergeSort fun p q => Text.unitLe p.text q.text

end DocHarvest.Glob
