import DocHarvest.Text.Basic

/-!
Absolute paths as the list of names from the root. Texts are resolved against a path name by name,
without a look at any file: a dot stays, two dots go up, and the root is its own parent.
-/

set_option autoImplicit false

namespace DocHarvest

structure Path where
  names : List Text
  deriving DecidableEq, Repr

namespace Path

def root : Path := ⟨[]⟩

def child (p : Path) (name : Text) : Path := ⟨p.names ++ [name]⟩

def parent (p : Path) : Path := ⟨p.names.dropLast⟩

def step (p : Path) (name : Text) : Path :=
  if name = [] ∨ name = ['.'] then p
  else if name = ['.', '.'] then p.parent
  else p.child name

def walk (p : Path) (names : List Text) : Path := names.foldl step p

def resolve (base : Path) (t : Text) : Path :=
  (if t.head? = some '/' then root else base).walk (t.splitOn '/')

def text : Path → Text
  | ⟨[]⟩ => ['/']
  | ⟨names⟩ => names.flatMap fun name => '/' :: name

def dropCommon : List Text → List Text → List Text × List Text
  | a :: as, b :: bs => if a = b then dropCommon as bs else (a :: as, b :: bs)
  | as, bs => (as, bs)

def relativeTo (base p : Path) : Text :=
  let (up, down) := dropCommon base.names p.names
  ['/'].intercalate (up.map (fun _ => ['.', '.']) ++ down)

/-- The end of the last name from its last dot on. A dot that starts the name starts no extension. -/
def extension (p : Path) : Text :=
  let name := p.names.getLast?.getD []
  let (tail, front) := name.reverse.span (· != '.')
  if front.length ≤ 1 || name = ['.', '.'] then [] else '.' :: tail.reverse

/-- A text without its last extension, where the extension may be all of the last name. -/
def withoutExtension (t : Text) : Text :=
  let (tail, front) := t.reverse.span fun c => c != '.' && c != '/'
  match tail, front with
  | _ :: _, '.' :: front => front.reverse
  | _, _ => t

theorem child_names (p : Path) (name : Text) : (p.child name).names = p.names ++ [name] := rfl

@[simp] theorem parent_child (p : Path) (name : Text) : (p.child name).parent = p := by
  cases p
  simp [child, parent]

theorem walk_append (p : Path) (as bs : List Text) : p.walk (as ++ bs) = (p.walk as).walk bs := by
  simp [walk]

end Path

end DocHarvest
