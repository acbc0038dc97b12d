import DocHarvest.Text.Units
import Mathlib.Data.List.Lex

set_option autoImplicit false

namespace DocHarvest.Text

theorem unitLe_iff (a b : Text) : unitLe a b = true ↔ units a ≤ units b := by
  simp [unitLe]

theorem charUnits_ne_nil (c : Char) : charUnits c ≠ [] := by
  simp only [charUnits]
  split <;> simp

-- No character of the basic plane is the lead of a pair, so the first unit tells where the next
-- character starts.
theorem charUnits_append_inj {c d : Char} {s t : List Nat}
    (same : charUnits c ++ s = charUnits d ++ t) : c = d ∧ s = t := by
  have valid (c : Char) : c.toNat < 0xD800 ∨ 0xDFFF < c.toNat ∧ c.toNat < 0x110000 := c.valid
  have left := valid c
  have right := valid d
  have equal (number : c.toNat = d.toNat) : c = d := Char.ext (UInt32.toNat_inj.mp number)
  simp only [charUnits] at same
  split at same <;> split at same <;>
    simp only [List.cons_append, List.nil_append, List.cons.injEq] at same
  · exact ⟨equal same.1, same.2⟩
  · omega
  · omega
  · exact ⟨equal (by omega), same.2.2⟩

theorem units_injective {a b : Text} (same : units a = units b) : a = b := by
  induction a generalizing b with
  | nil =>
    cases b with
    | nil => rfl
    | cons d b => simp [units, charUnits_ne_nil] at same
  | cons c a ih =>
    cases b with
    | nil => simp [units, charUnits_ne_nil] at same
    | cons d b =>
      have first := charUnits_append_inj (by simpa [units] using same)
      rw [first.1, ih first.2]

@[simp] theorem units_append (a b : Text) : units (a ++ b) = units a ++ units b := by
  simp [units]

@[simp] theorem unitLength_append (a b : Text) :
    unitLength (a ++ b) = unitLength a + unitLength b := by
  simp [unitLength]

@[simp] theorem unitLength_nil : unitLength [] = 0 := rfl

theorem unitLength_pos {t : Text} (shown : t ≠ []) : 0 < unitLength t := by
  obtain ⟨c, more, rfl⟩ := List.exists_cons_of_ne_nil shown
  have first := List.length_pos_of_ne_nil (charUnits_ne_nil c)
  simp [unitLength, units]
  omega

def isBlankUnit (u : Nat) : Bool := isBlank (Char.ofNat u)

-- Blanks are of the basic plane, and half a pair is no character at all.
theorem isBlankUnit_of_mem_charUnits {c : Char} {u : Nat} (member : u ∈ charUnits c) :
    isBlankUnit u = isBlank c := by
  have valid : c.toNat < 0xD800 ∨ 0xDFFF < c.toNat ∧ c.toNat < 0x110000 := c.valid
  simp only [charUnits] at member
  split at member
  · obtain rfl : u = c.toNat := by simpa using member
    rw [isBlankUnit, Char.ofNat_toNat]
  · next high =>
    have half : 0xD800 ≤ u ∧ u ≤ 0xDFFF := by
      simp only [List.mem_cons, List.not_mem_nil, or_false] at member
      omega
    have none_there : ¬ u.isValidChar := by
      simp only [Nat.isValidChar]
      omega
    have shown : isBlank c = false := by
      simp [isBlank]
      omega
    rw [isBlankUnit, Char.ofNat, dif_neg none_there, shown]
    decide

theorem isBlankUnit_of_mem_units {t : Text} {u : Nat} {blank : Bool}
    (all : ∀ c ∈ t, isBlank c = blank) (member : u ∈ units t) : isBlankUnit u = blank := by
  obtain ⟨c, inside, listed⟩ := List.mem_flatMap.mp member
  rw [isBlankUnit_of_mem_charUnits listed, all c inside]

end DocHarvest.Text
