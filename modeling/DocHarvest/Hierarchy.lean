import DocHarvest.Record
import DocHarvest.Text.Units

set_option autoImplicit false

namespace DocHarvest

inductive SortMode where
  | source | hierarchical
  deriving DecidableEq, Repr

namespace SortMode

def all : List SortMode := [.source, .hierarchical]

def name : SortMode → String
  | .source => "source"
  | .hierarchical => "hierarchical"

def ofName? (t : Text) : Option SortMode := all.find? fun m => m.name.toList == t

end SortMode

structure Hierarchy where
  depth : Nat
  objectPath : Text
  subPath : Text
  functionName : Text
  deriving DecidableEq, Repr

namespace Hierarchy

/-- What stands before the first dot, if a dot follows at least one character. -/
def objectOf? (name : Text) : Option Text :=
  let head := name.takeWhile (· != '.')
  if head != [] && name.contains '.' then some head else none

def bump (o : Text) : List (Text × Nat) → List (Text × Nat)
  | [] => [(o, 1)]
  | (p, n) :: rest => if p = o then (p, n + 1) :: rest else (p, n) :: bump o rest

def countObjects (names : List Text) : List (Text × Nat) :=
  names.foldl (fun counts name =>
    match objectOf? name with
    | some o => bump o counts
    | none => counts) []

def better (least : Nat) (best : Option (Text × Nat)) (entry : Text × Nat) : Option (Text × Nat) :=
  if (best.map Prod.snd).getD 0 < entry.2 && least ≤ entry.2 then some entry else best

def leastTenths : Nat := 3

def primary? (names : List Text) : Option Text :=
  ((countObjects names).foldl (better (names.length * leastTenths / 10)) none).map Prod.fst

def segments (name : Text) : List Text :=
  let path := if name.contains '.' then (name.dropWhile (· != '.')).drop 1 else name
  (path.splitOn '.').filter (· != [])

def below (primary : Text) (path : Text) : Text :=
  if primary = [] then path
  else if path = primary then []
  else ((primary ++ ['.']).isPrefixOf? path).getD path

def ofName (primary : Option Text) (name : Text) : Hierarchy :=
  match (segments name).getLast? with
  | none => ⟨0, [], [], name⟩
  | some last =>
    let objects := (segments name).dropLast
    let path := ['.'].intercalate objects
    ⟨objects.length, path, below (primary.getD []) path, last⟩

def le (a b : Hierarchy) : Bool :=
  if a.depth != b.depth then b.depth < a.depth
  else if a.objectPath != b.objectPath then Text.unitLe a.objectPath b.objectPath
  else Text.unitLe a.functionName b.functionName

end Hierarchy

namespace Record

def sortHierarchically (records : List Record) : List Record :=
  let primary := Hierarchy.primary? (records.map Record.name)
  let keyed := records.map fun r => (Hierarchy.ofName primary r.name, r)
  (keyed.mergeSort fun a b => Hierarchy.le a.1 b.1).map Prod.snd

def sort (mode : SortMode) (records : List Record) : List Record :=
  match mode with
  | .source => records
  | .hierarchical => sortHierarchically records

end Record

end DocHarvest
