import DocHarvest.Proofs.Text.Trim
import DocHarvest.Text.Lines

set_option autoImplicit false

namespace DocHarvest.Text

def isCut (c : Char) : Bool := c == '\n' || c == '\r'

def isSeparator (c : Char) : Bool := c == '\u2028' || c == '\u2029'

theorem isTerminator_eq (c : Char) : isTerminator c = (isCut c || isSeparator c) := by
  simp [isTerminator, isCut, isSeparator, Bool.or_assoc]

theorem oneLine_of_uncut {t : Text} (uncut : ∀ c ∈ t, isCut c = false) :
    oneLine t = !t.any isSeparator := by
  rw [Bool.eq_iff_iff, oneLine_iff]
  simp only [isTerminator_eq, Bool.not_eq_true', List.any_eq_false]
  constructor
  · intro single c member separates
    simpa [separates] using single c member
  · intro plain c member
    simp [uncut c member, plain c member]

theorem uncut_linesFrom (current t : Text) (uncut : ∀ c ∈ current, isCut c = false) :
    ∀ line ∈ linesFrom current t, ∀ c ∈ line, isCut c = false := by
  fun_induction linesFrom current t with
  | case1 current => simpa using uncut
  | case2 current t ih => simpa using ⟨uncut, ih (by simp)⟩
  | case3 current c t _ cuts ih => simpa using ⟨uncut, ih (by simp)⟩
  | case4 current c t _ inside ih =>
    have plain : isCut c = false := by simpa [isCut] using inside
    apply ih
    simpa [plain] using uncut

theorem uncut_of_mem_lines {t line : Text} (member : line ∈ lines t) :
    ∀ c ∈ line, isCut c = false :=
  uncut_linesFrom [] t (by simp) line member

end DocHarvest.Text
