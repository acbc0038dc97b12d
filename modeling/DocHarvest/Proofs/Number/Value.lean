import DocHarvest.Number.Basic
import Mathlib.Algebra.Order.Field.Power
import Mathlib.Data.Rat.Floor

set_option autoImplicit false

namespace DocHarvest.Number

def signed (negative : Bool) (m : Nat) : Int := if negative then -m else m

def value? : Number → Option ℚ
  | .finite negative m e => some (signed negative m * 2 ^ e)
  | _ => none

-- How numbers are held: no factor of two is left in the mantissa.
def Reduced : Number → Prop
  | .finite _ m e => m % 2 = 1 ∨ m = 0 ∧ e = 0
  | _ => True

instance : DecidablePred Reduced
  | .nan => .isTrue trivial
  | .infinite _ => .isTrue trivial
  | .finite _ m e => inferInstanceAs (Decidable (m % 2 = 1 ∨ m = 0 ∧ e = 0))

section Reduce

theorem reduce_value (fuel m : Nat) (e : Int) :
    ((reduce fuel m e).1 : ℚ) * 2 ^ (reduce fuel m e).2 = m * 2 ^ e := by
  induction fuel generalizing m e with
  | zero => rfl
  | succ fuel ih =>
    rw [reduce]
    split
    · next even =>
      have halves : (m : ℚ) = (m / 2 : Nat) * 2 := by
        have whole : m = m / 2 * 2 := by omega
        exact_mod_cast whole
      rw [ih, halves, zpow_add₀ (by norm_num)]
      ring
    · rfl

theorem reduce_odd (fuel m : Nat) (e : Int) (positive : 0 < m) (bound : m < 2 ^ (fuel + 1)) :
    (reduce fuel m e).1 % 2 = 1 := by
  induction fuel generalizing m e with
  | zero =>
    have one : m = 1 := by omega
    simp [reduce, one]
  | succ fuel ih =>
    rw [reduce]
    split
    · exact ih (m / 2) (e + 1) (by omega) (by omega)
    · omega

end Reduce

theorem value?_ofDyadic (negative : Bool) (m : Nat) (e : Int) :
    (ofDyadic negative m e).value? = some ((signed negative m : ℚ) * 2 ^ e) := by
  by_cases zero : m = 0
  · simp [ofDyadic, zero, Number.zero, value?, signed]
  · have value := reduce_value m.log2 m e
    cases negative <;> simpa [ofDyadic, zero, value?, signed] using value

theorem value?_count (n : Nat) : (ofDyadic false n 0).value? = some (n : ℚ) := by
  simp [value?_ofDyadic, signed]

theorem reduced_ofDyadic (negative : Bool) (m : Nat) (e : Int) :
    (ofDyadic negative m e).Reduced := by
  by_cases zero : m = 0
  · simp [ofDyadic, zero, Number.zero, Reduced]
  · have odd := reduce_odd m.log2 m e (by omega) Nat.lt_log2_self
    simp [ofDyadic, zero, Reduced, odd]

theorem two_zpow (e : Int) : (2 : ℚ) ^ e = 2 ^ e.toNat / 2 ^ (-e).toNat := by
  conv_lhs => rw [← Int.toNat_sub_toNat_neg e]
  rw [zpow_sub₀ (by norm_num), zpow_natCast, zpow_natCast]

theorem floor?_eq_floor_value (x : Number) : x.floor? = x.value?.map Int.floor := by
  cases x with
  | nan | infinite => rfl
  | finite negative m e =>
    have quotient : (signed negative m : ℚ) * 2 ^ e =
        ((signed negative m * 2 ^ e.toNat : ℤ) : ℚ) / ((2 ^ (-e).toNat : ℕ) : ℚ) := by
      rw [two_zpow]
      push_cast
      ring
    have up : (if negative then -((m * 2 ^ e.toNat : ℕ) : ℤ) else (m * 2 ^ e.toNat : ℕ)) =
        signed negative m * 2 ^ e.toNat := by
      cases negative <;> simp [signed]
    rw [value?, Option.map_some, quotient, Rat.floor_intCast_div_natCast]
    simp only [floor?, scaleUp, Nat.pow_eq, up, Nat.one_mul]
    rw [Int.fdiv_eq_ediv_of_nonneg _ (by positivity)]

-- A fraction of an odd number by a power of two is not whole.
theorem signed_mul_ne_int {negative : Bool} {m : Nat} {e : Int} (odd : m % 2 = 1) (below : e < 0)
    (z : Int) : (signed negative m : ℚ) * 2 ^ e ≠ z := by
  intro same
  obtain ⟨k, rfl⟩ : ∃ k : Nat, e = -((k + 1 : Nat) : Int) := ⟨(-e).toNat - 1, by omega⟩
  rw [zpow_neg, zpow_natCast, ← div_eq_mul_inv, div_eq_iff (by positivity)] at same
  have whole : signed negative m = z * 2 ^ (k + 1) := by exact_mod_cast same
  have even : signed negative m = z * 2 ^ k * 2 := by rw [whole, pow_succ, mul_assoc]
  generalize z * 2 ^ k = half at even
  unfold signed at even
  split at even <;> omega

theorem isWhole_iff {x : Number} (reduced : x.Reduced) :
    x.isWhole = true ↔ ∃ z : ℤ, x.value? = some (z : ℚ) := by
  cases x with
  | nan | infinite => simp [isWhole, value?]
  | finite negative m e =>
    simp only [isWhole, value?, decide_eq_true_eq, Option.some.injEq]
    constructor
    · intro whole
      lift e to ℕ using whole
      exact ⟨signed negative m * 2 ^ e, by push_cast; rfl⟩
    · intro integer
      rcases integer with ⟨z, same⟩
      by_contra below
      rcases reduced with odd | zero
      · exact signed_mul_ne_int odd (by omega) z same
      · omega

theorem isNegative_iff (x : Number) :
    x.isNegative = true ↔ x = .infinite true ∨ ∃ q < 0, x.value? = some q := by
  cases x with
  | nan => simp [isNegative, value?]
  | infinite negative => simp [isNegative, value?]
  | finite negative m e =>
    have scale : (0 : ℚ) < 2 ^ e := zpow_pos (by norm_num) e
    have sign : (signed negative m : ℚ) * 2 ^ e < 0 ↔ signed negative m < 0 := by
      rw [← neg_pos, ← neg_mul, mul_pos_iff_of_pos_right scale, neg_pos, Int.cast_lt_zero]
    simp only [isNegative, value?, reduceCtorEq, false_or, Option.some.injEq, exists_eq_right', sign]
    cases negative <;> simp [signed, Nat.pos_iff_ne_zero]

theorem isCount_iff {x : Number} (reduced : x.Reduced) :
    x.isWhole = true ∧ x.isNegative = false ↔ ∃ n : ℕ, x.value? = some (n : ℚ) := by
  rw [isWhole_iff reduced, ← Bool.not_eq_true, isNegative_iff]
  constructor
  · intro count
    rcases count with ⟨⟨z, value⟩, above⟩
    have natural : 0 ≤ z := by
      by_contra below
      exact above (.inr ⟨z, by exact_mod_cast not_le.mp below, value⟩)
    lift z to ℕ using natural
    exact ⟨z, value⟩
  · intro natural
    rcases natural with ⟨n, value⟩
    refine ⟨⟨n, by exact_mod_cast value⟩, ?_⟩
    rintro (rfl | ⟨q, below, same⟩)
    · cases value
    · rw [value, Option.some.injEq] at same
      exact absurd below (not_lt.mpr (same ▸ n.cast_nonneg))

end DocHarvest.Number
