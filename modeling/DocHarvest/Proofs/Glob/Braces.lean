import DocHarvest.Glob.Braces
import DocHarvest.Glob.Segment
import Mathlib.Data.List.Basic

set_option autoImplicit false

namespace DocHarvest.Glob

-- No backslash at the end waits for a character to come.
def Whole (t : Text) : Prop := ∀ more, marks (t ++ more) = marks t ++ marks more

theorem marks_cons {c : Char} (plain : c ≠ '\\') (t : Text) :
    marks (c :: t) = (c, false) :: marks t := by
  rw [marks]
  simp [plain]

theorem Whole.escaped {t : Text} (whole : Whole t) (c : Char) : Whole ('\\' :: c :: t) := by
  intro more
  simp [marks, whole more]

theorem Whole.cons {t : Text} (whole : Whole t) {c : Char} (plain : c ≠ '\\') : Whole (c :: t) := by
  intro more
  rw [List.cons_append, marks_cons plain, marks_cons plain, whole more, List.cons_append]

def Group.escaped (g : Group) : Text := g.before ++ '\x7b' :: g.body ++ '\\' :: '\x7d' :: g.after

def embrace (part : Text) : Text := '\x7b' :: part ++ ['\x7d']

section Front

variable {front : Text} (no_brace : '\x7b' ∉ front)

include no_brace

end Front

end DocHarvest.Glob
