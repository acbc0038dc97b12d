import DocHarvest.Parser

set_option autoImplicit false

namespace DocHarvest

namespace Cursor

theorem advance_advance (c : Cursor) (m n : Nat) : (c.advance m).advance n = c.advance (m + n) := by
  simp [advance, List.take_add]

theorem position_add_length (c : Cursor) : c.position + c.after.length = c.lines.length + 1 := by
  simp [position, lines]
  omega

-- The place in front of line `p` of a text, counted from 1.
def atLine (lines : List Text) (context : Context) (p : Nat) : Cursor :=
  (start lines context).advance (p - 1)

theorem eq_atLine (c : Cursor) : c = atLine c.lines c.context c.position := by
  simp [atLine, start, advance, position, lines]

@[simp] theorem after_atLine (lines : List Text) (context : Context) (p : Nat) :
    (atLine lines context p).after = lines.drop (p - 1) := rfl

@[simp] theorem lines_atLine (lines : List Text) (context : Context) (p : Nat) :
    (atLine lines context p).lines = lines := by
  rw [atLine, lines_advance]
  simp [Cursor.lines, start]

theorem advance_atLine (lines : List Text) (context : Context) {p : Nat} (counted : 1 ≤ p)
    (n : Nat) : (atLine lines context p).advance n = atLine lines context (p + n) := by
  have sum : p - 1 + n = p + n - 1 := by omega
  rw [atLine, advance_advance, sum, atLine]

theorem position_atLine {lines : List Text} (context : Context) {p : Nat} (counted : 1 ≤ p)
    (within : p ≤ lines.length + 1) : (atLine lines context p).position = p := by
  have moved := position_advance (start lines context) (p - 1)
  have short : min (p - 1) lines.length = p - 1 := by omega
  simp only [start, position, List.length_nil, short] at moved
  rw [atLine, start, position, moved]
  omega

end Cursor

namespace Parser

variable {α : Type} {p : Parser α}

theorem scanAhead_eq_some {limit : Nat} {c : Cursor} {r : α × Cursor}
    (found : scanAhead limit p c = some r) : ∃ k, k < limit ∧ k < c.after.length ∧
      p (c.advance k) = some r ∧ ∀ j < k, p (c.advance j) = none := by
  induction limit generalizing c with
  | zero => simp [scanAhead] at found
  | succ limit ih =>
    rw [scanAhead] at found
    split at found
    · cases found
    · next inside =>
      have some_line : 0 < c.after.length := by
        cases h : c.after with
        | nil => simp [Cursor.atEnd, h] at inside
        | cons line rest => simp
      cases here : p c with
      | some r' =>
        rw [here] at found
        exact ⟨0, by omega, some_line, here.trans found, by simp⟩
      | none =>
        rw [here] at found
        obtain ⟨k, within, before_end, hit, misses⟩ := ih found
        simp only [Cursor.after_advance, List.length_drop] at before_end
        rw [Cursor.advance_advance, Nat.add_comm] at hit
        refine ⟨k + 1, by omega, by omega, hit, ?_⟩
        intro j earlier
        cases j with
        | zero => exact here
        | succ j =>
          have miss := misses j (by omega)
          rwa [Cursor.advance_advance, Nat.add_comm] at miss

theorem scanAhead_eq_none {limit : Nat} {c : Cursor} (failed : scanAhead limit p c = none) {k : Nat}
    (within : k < limit) (before_end : k < c.after.length) : p (c.advance k) = none := by
  induction limit generalizing c k with
  | zero => omega
  | succ limit ih =>
    rw [scanAhead] at failed
    split at failed
    · next at_end =>
      have none_left : c.after = [] := by simpa [Cursor.atEnd] using at_end
      simp [none_left] at before_end
    · cases here : p c with
      | some r => simp [here] at failed
      | none =>
        rw [here] at failed
        cases k with
        | zero => exact here
        | succ k =>
          have later : k < (c.advance 1).after.length := by simp; omega
          have miss := ih failed (by omega) later
          rwa [Cursor.advance_advance, Nat.add_comm] at miss

end Parser

end DocHarvest
