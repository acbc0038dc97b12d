import DocHarvest.Proofs.Number.Value
import DocHarvest.Proofs.Parser.Window
import Mathlib.Order.Bounds.Basic
import Mathlib.Order.WithBot
import Mathlib.Tactic.Linarith

set_option autoImplicit false

namespace DocHarvest

namespace Number

-- Where a number stands among the counts 0, 1, …; none of them is less than a missing number.
def extent : Number → WithBot (WithTop ℚ)
  | .finite negative m e => ((signed negative m * 2 ^ e : ℚ) : WithTop ℚ)
  | .infinite false => (⊤ : WithTop ℚ)
  | _ => ⊥

theorem extent_of_value? {x : Number} {v : ℚ} (value : x.value? = some v) :
    x.extent = ((v : WithTop ℚ) : WithBot (WithTop ℚ)) := by
  cases x with
  | finite negative m e =>
    obtain rfl : (signed negative m : ℚ) * 2 ^ e = v := by simpa [value?] using value
    rfl
  | nan | infinite => cases value

def Exceeds (x : Number) (n : Nat) : Prop :=
  (((n : ℚ) : WithTop ℚ) : WithBot (WithTop ℚ)) < x.extent

theorem exceeds_iff_lt {x : Number} {v : ℚ} (value : x.value? = some v) (n : Nat) :
    x.Exceeds n ↔ (n : ℚ) < v := by
  rw [Exceeds, extent_of_value? value, WithBot.coe_lt_coe, WithTop.coe_lt_coe]

theorem ceil?_eq_ceil_value (x : Number) : x.ceil? = x.value?.map Int.ceil := by
  cases x with
  | nan | infinite => rfl
  | finite negative m e =>
    have turned : (Number.finite (!negative) m e).value? =
        some (-((signed negative m : ℚ) * 2 ^ e)) := by
      cases negative <;> simp [value?, signed]
    rw [ceil?, floor?_eq_floor_value, turned]
    simp [value?, Int.floor_neg]

theorem lt_countBelow_iff (x : Number) {n most : Nat} (below : n < most) :
    n < x.countBelow most ↔ x.Exceeds n := by
  cases x with
  | nan => simp [countBelow, Exceeds, extent]
  | infinite negative =>
    cases negative with
    | true => simp [countBelow, Exceeds, extent]
    | false =>
      have finite : (((n : ℚ) : WithTop ℚ) : WithBot (WithTop ℚ)) < (⊤ : WithTop ℚ) :=
        WithBot.coe_lt_coe.mpr (WithTop.coe_lt_top _)
      simpa [countBelow, Exceeds, extent, below] using finite
  | finite negative m e =>
    have value : (Number.finite negative m e).value? =
      some ((signed negative m : ℚ) * 2 ^ e) := rfl
    rw [exceeds_iff_lt value, countBelow, ceil?_eq_ceil_value, value]
    simp only [Option.map_some, Option.getD_some, lt_min_iff, below, and_true, Int.lt_toNat]
    rw [Int.lt_ceil]
    norm_cast

end Number

def Cursor.moved (c : Cursor) (q : Nat) : Cursor := .atLine c.lines c.context q

theorem Cursor.advance_eq_moved (c : Cursor) (n : Nat) :
    c.advance n = c.moved (c.position + n) := by
  have counted : 1 ≤ c.position := by simp [position]
  conv_lhs => rw [c.eq_atLine]
  exact advance_atLine c.lines c.context counted n

namespace Parser

variable {α : Type} {p : Parser α} {c : Cursor}

def Hits (p : Parser α) (c : Cursor) (tried : Nat → Prop) : Set Nat :=
  {q | tried q ∧ (p (c.moved q)).isSome = true}

structure FirstHit (p : Parser α) (c : Cursor) (tried : Nat → Prop) (r : Option (α × Cursor)) :
    Prop where
  found (q : Nat) : IsLeast (Hits p c tried) q → r = p (c.moved q)
  missed : Hits p c tried = ∅ → r = none

theorem Hits.empty_or_least (p : Parser α) (c : Cursor) (tried : Nat → Prop) :
    Hits p c tried = ∅ ∨ ∃ q, IsLeast (Hits p c tried) q := by
  classical
  rcases (Hits p c tried).eq_empty_or_nonempty with none_hit | some_hit
  · exact .inl none_hit
  · exact .inr ⟨Nat.find some_hit, Nat.find_spec some_hit, fun _ hit => Nat.find_min' some_hit hit⟩

theorem FirstHit.exists_least {tried : Nat → Prop} {r : Option (α × Cursor)}
    (first : FirstHit p c tried r) (success : r.isSome = true) :
    ∃ q, IsLeast (Hits p c tried) q := by
  rcases Hits.empty_or_least p c tried with none_hit | least
  · simp [first.missed none_hit] at success
  · exact least

-- A search that tries more, but nothing new before the hit, gives the same.
theorem FirstHit.mono {tried more : Nat → Prop} {r s : Option (α × Cursor)}
    (first : FirstHit p c tried r) (second : FirstHit p c more s)
    (wider : ∀ q, tried q → more q) (front : ∀ q q', tried q → more q' → q' ≤ q → tried q')
    (success : r.isSome = true) : s = r := by
  obtain ⟨q, ⟨within, hit⟩, least⟩ := first.exists_least success
  have still_least : IsLeast (Hits p c more) q := by
    refine ⟨⟨wider q within, hit⟩, fun q' ⟨other, hit'⟩ => ?_⟩
    by_contra earlier
    exact earlier (least ⟨front q q' within other (by omega), hit'⟩)
  rw [second.found q still_least, first.found q ⟨⟨within, hit⟩, least⟩]

theorem FirstHit.unique {tried : Nat → Prop} {r s : Option (α × Cursor)}
    (first : FirstHit p c tried r) (second : FirstHit p c tried s) : r = s := by
  rcases Hits.empty_or_least p c tried with none_hit | ⟨q, least⟩
  · rw [first.missed none_hit, second.missed none_hit]
  · rw [first.found q least, second.found q least]

theorem scanAhead_firstHit (p : Parser α) (c : Cursor) (limit : Nat) :
    FirstHit p c (fun q => c.position ≤ q ∧ q ≤ c.lines.length ∧ q - c.position < limit)
      (scanAhead limit p c) := by
  have count := c.position_add_length
  have moved (n : Nat) : p (c.advance n) = p (c.moved (c.position + n)) := by
    rw [c.advance_eq_moved]
  constructor
  · rintro q ⟨⟨⟨behind, inside, near⟩, hit⟩, least⟩
    obtain ⟨n, rfl⟩ := Nat.exists_eq_add_of_le behind
    cases result : scanAhead limit p c with
    | none =>
      have miss := scanAhead_eq_none result (k := n) (by omega) (by omega)
      rw [← moved, miss] at hit
      cases hit
    | some r =>
      obtain ⟨k, within, before_end, found, misses⟩ := scanAhead_eq_some result
      have hit_k : (p (c.moved (c.position + k))).isSome = true := by simp [← moved, found]
      have le := least ⟨⟨Nat.le_add_right _ _, by omega, by omega⟩, hit_k⟩
      have same : n = k := by
        by_contra differ
        have miss := misses n (by omega)
        rw [moved] at miss
        simp [miss] at hit
      rw [same, ← moved, found]
  · intro none_hit
    cases result : scanAhead limit p c with
    | none => rfl
    | some r =>
      obtain ⟨k, within, before_end, found, _⟩ := scanAhead_eq_some result
      have hit_k : (p (c.moved (c.position + k))).isSome = true := by simp [← moved, found]
      have hit : c.position + k ∈ (∅ : Set Nat) :=
        none_hit ▸ ⟨⟨Nat.le_add_right _ _, by omega, by omega⟩, hit_k⟩
      cases hit

def Window (limit : Number) (c : Cursor) (q : Nat) : Prop :=
  c.position ≤ q ∧ q ≤ c.lines.length ∧ limit.Exceeds (q - c.position)

theorem scanAheadBy_firstHit (p : Parser α) (c : Cursor) (limit : Number) :
    FirstHit p c (Window limit c) (scanAheadBy limit p c) := by
  have same : Window limit c = fun q => c.position ≤ q ∧ q ≤ c.lines.length ∧
      q - c.position < limit.countBelow c.after.length := by
    have count := c.position_add_length
    funext q
    apply propext
    rw [Window, and_congr_right_iff]
    intro behind
    rw [and_congr_right_iff]
    intro inside
    exact (limit.lt_countBelow_iff (by omega)).symm
  rw [same]
  exact scanAhead_firstHit p c _

theorem window_iff {limit : Number} {k : ℤ} (value : limit.value? = some (k : ℚ)) (c : Cursor)
    (q : Nat) : Window limit c q ↔
      c.position ≤ q ∧ (q : ℤ) ≤ min (c.position + k - 1) c.lines.length := by
  have cast : (((q - c.position : Nat) : ℚ) < k) ↔ ((q - c.position : Nat) : ℤ) < k := by norm_cast
  rw [Window, Number.exceeds_iff_lt value, cast]
  omega

theorem Window.front {limit more : Number} {q q' : Nat} (tried : Window limit c q)
    (other : Window more c q') (le : q' ≤ q) : Window limit c q' := by
  refine ⟨other.1, other.2.1, lt_of_le_of_lt ?_ tried.2.2⟩
  rw [WithBot.coe_le_coe, WithTop.coe_le_coe, Nat.cast_le]
  omega

theorem Window.wider {limit more : Number} (larger : limit.extent ≤ more.extent) {q : Nat}
    (tried : Window limit c q) : Window more c q :=
  ⟨tried.1, tried.2.1, lt_of_lt_of_le tried.2.2 larger⟩

theorem window_of_enough {limit : Number} (enough :
    ((((c.lines.length : ℚ) - c.position + 1 : ℚ) : WithTop ℚ) : WithBot (WithTop ℚ)) ≤
      limit.extent) : Window limit c = fun q => c.position ≤ q ∧ q ≤ c.lines.length := by
  funext q
  apply propext
  constructor
  · exact fun tried => ⟨tried.1, tried.2.1⟩
  · rintro ⟨behind, inside⟩
    refine ⟨behind, inside, lt_of_lt_of_le ?_ enough⟩
    have inside' : (q : ℚ) ≤ c.lines.length := by exact_mod_cast inside
    rw [WithBot.coe_lt_coe, WithTop.coe_lt_coe, Nat.cast_sub behind]
    linarith

/-- A search gives what the parser gives at the first line of its window at which it succeeds, and
fails if there is none. A larger limit finds the same, and limits from the number of the lines left
on do not differ. For a whole limit `k` the window ends with the `k`-th line or with the text. -/
theorem scan_takes_first_in_window (p : Parser α) (c : Cursor) :
    (∀ limit : Number,
      (∀ q, IsLeast {q | Window limit c q ∧ (p (c.moved q)).isSome = true} q →
        scanAheadBy limit p c = p (c.moved q)) ∧
      ((∀ q, Window limit c q → p (c.moved q) = none) → scanAheadBy limit p c = none)) ∧
    (∀ (limit : Number) (k : ℤ), limit.value? = some (k : ℚ) → ∀ q, Window limit c q ↔
      c.position ≤ q ∧ (q : ℤ) ≤ min (c.position + k - 1) c.lines.length) ∧
    (∀ (limit : Number) (k : ℕ), limit.value? = some (k : ℚ) →
      scanAheadBy limit p c = scanAhead k p c) ∧
    (∀ limit more : Number, limit.extent ≤ more.extent → (scanAheadBy limit p c).isSome = true →
      scanAheadBy more p c = scanAheadBy limit p c) ∧
    ∀ limit more : Number,
      let left : ℚ := (c.lines.length : ℚ) - c.position + 1
      ((left : WithTop ℚ) : WithBot (WithTop ℚ)) ≤ limit.extent →
      ((left : WithTop ℚ) : WithBot (WithTop ℚ)) ≤ more.extent →
      scanAheadBy limit p c = scanAheadBy more p c := by
  refine ⟨?_, fun limit k value => window_iff value c, ?_, ?_, ?_⟩
  · intro limit
    have first := scanAheadBy_firstHit p c limit
    refine ⟨first.found, fun misses => first.missed ?_⟩
    apply Set.eq_empty_of_forall_notMem
    rintro q ⟨tried, hit⟩
    simp [misses q tried] at hit
  · intro limit k value
    have whole : Window limit c =
        fun q => c.position ≤ q ∧ q ≤ c.lines.length ∧ q - c.position < k := by
      funext q
      rw [Window, Number.exceeds_iff_lt value, Nat.cast_lt]
    exact (whole ▸ scanAheadBy_firstHit p c limit).unique (scanAhead_firstHit p c k)
  · intro limit more larger success
    exact (scanAheadBy_firstHit p c limit).mono (scanAheadBy_firstHit p c more)
      (fun q => Window.wider larger) (fun q q' => Window.front) success
  · intro limit more left enough enough'
    have first := scanAheadBy_firstHit p c limit
    have second := scanAheadBy_firstHit p c more
    rw [window_of_enough enough] at first
    rw [window_of_enough enough'] at second
    exact first.unique second

theorem scan_takes_first_in_window_sample :
    let lines := ["a".toList, "-- b".toList, "c".toList, "-- d".toList]
    let c := Cursor.atLine lines (.outside []) 1
    let p := satisfy fun line => line.head? = some '-'
    let two := Number.ofDyadic false 2 0
    let many := Number.infinite false
    two.value? = some ((2 : ℤ) : ℚ) ∧ Window two c 2 ∧ ¬ Window two c 3 ∧
      (scanAheadBy two p c).isSome = true ∧ scanAheadBy many p c = scanAheadBy two p c := by
  intro lines c p two many
  have value : two.value? = some ((2 : ℤ) : ℚ) := Number.value?_count 2
  have larger : two.extent ≤ many.extent := WithBot.coe_le_coe.mpr le_top
  obtain ⟨_, window, _, mono, _⟩ := scan_takes_first_in_window p c
  have found : (scanAheadBy two p c).isSome = true := by decide
  refine ⟨value, (window two 2 value 2).mpr (by decide), ?_, found, mono two many larger found⟩
  intro tried
  exact absurd ((window two 2 value 3).mp tried) (by decide)

end Parser

end DocHarvest
