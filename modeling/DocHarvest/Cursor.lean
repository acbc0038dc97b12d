import DocHarvest.Number.Basic
import DocHarvest.Settings.Basic

/-!
A place between the lines of a text, with what is known of the comment around it. The lines before
the place are kept in reverse, so that a step forward moves one line over, and no operation can
leave the text or lose a line.
-/

set_option autoImplicit false

namespace DocHarvest

inductive Region where
  | description | sample
  deriving DecidableEq, Repr

structure Context where
  inFence : Bool
  lang : Text
  region : Region
  deriving DecidableEq, Repr

def Context.outside (lang : Text) : Context := ⟨false, lang, .description⟩

structure Cursor where
  before : List Text
  after : List Text
  context : Context
  deriving DecidableEq, Repr

namespace Cursor

def start (lines : List Text) (context : Context) : Cursor := ⟨[], lines, context⟩

def lines (c : Cursor) : List Text := c.before.reverse ++ c.after

/-- Counted from 1; one past the number of lines at the end. -/
def position (c : Cursor) : Nat := c.before.length + 1

def atEnd (c : Cursor) : Bool := c.after.isEmpty

def line? (c : Cursor) : Option Text := c.after.head?

def advance (c : Cursor) (n : Nat) : Cursor :=
  { c with before := (c.after.take n).reverse ++ c.before, after := c.after.drop n }

def withContext (c : Cursor) (context : Context) : Cursor := { c with context := context }

@[simp] theorem lines_advance (c : Cursor) (n : Nat) : (c.advance n).lines = c.lines := by
  simp [lines, advance]

@[simp] theorem after_advance (c : Cursor) (n : Nat) : (c.advance n).after = c.after.drop n := rfl

@[simp] theorem context_advance (c : Cursor) (n : Nat) : (c.advance n).context = c.context := rfl

theorem position_advance (c : Cursor) (n : Nat) :
    (c.advance n).position = c.position + min n c.after.length := by
  simp [position, advance]
  omega

end Cursor

/-- The whole number not above `x`, moved into the range from 0 to `most`. What is not a number has no
place in that range and is moved to its start. -/
def Number.floorWithin (most : Nat) (x : Number) : Nat :=
  match x with
  | .finite .. => min ((x.floor?).getD 0).toNat most
  | .infinite negative => if negative then 0 else most
  | .nan => 0

/-- How many of the numbers 0, 1, … below `most` are less than `x`. -/
def Number.countBelow (most : Nat) (x : Number) : Nat :=
  match x with
  | .finite .. => min ((x.ceil?).getD 0).toNat most
  | .infinite negative => if negative then 0 else most
  | .nan => 0

namespace Cursor

/-- The place in front of a line given by a number: a fraction is dropped, and what lies outside the
text is moved to its nearer end. A position that is not a number names no line, so there is no place
to keep it in; it is taken as the first line. -/
def atNumber (lines : List Text) (position : Number) (context : Context) : Cursor :=
  (start lines context).advance (position.floorWithin (lines.length + 1) - 1)

-- Never back, and never past the end; steps that are not a number lead nowhere.
def advanceBy (c : Cursor) (steps : Number) : Cursor :=
  let forward := if steps.isNegative then Number.zero false else steps
  let target := (Number.ofNat c.position).add forward
  c.advance (target.floorWithin (c.lines.length + 1) - c.position)

end Cursor

end DocHarvest
