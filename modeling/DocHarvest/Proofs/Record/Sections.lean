import DocHarvest.Proofs.Record.Decomposition

set_option autoImplicit false

namespace DocHarvest

open Comment

namespace Block

-- What is read from the lines `front` if the lines `rest` follow.
structure Spans (s : Settings) (front rest : List Text) (b : Block) : Prop where
  some_line : front ≠ []
  first : ∀ line ∈ front.head?, isBlankLine line = false
  run : ∃ e, Draft.Run s (Draft.empty s) front rest e ∧ e.block = b

theorem Spans.parser {s : Settings} {c : Cursor} {front rest : List Text} {b : Block}
    (spans : Spans s front rest b) (outside : c.context.inFence = false)
    (split : c.after = front ++ rest) :
    ∃ next, Block.parser s c = some (b, next) ∧ next.position = c.position + front.length := by
  obtain ⟨e, run, rfl⟩ := spans.run
  refine ⟨_, parser_of_run outside split spans.some_line spans.first run, ?_⟩
  have moved := Cursor.position_advance c front.length
  rwa [split, List.length_append, Nat.min_eq_left (Nat.le_add_right _ _)] at moved

theorem exists_spans {s : Settings} {c next : Cursor} {b : Block}
    (outside : c.context.inFence = false) (read : Block.parser s c = some (b, next)) :
    ∃ front rest, c.after = front ++ rest ∧ Spans s front rest b ∧
      next.position = c.position + front.length := by
  have accepted := parser_isSome s c
  rw [read, outside] at accepted
  obtain ⟨front, rest, e, split, run⟩ := Draft.exists_run s (Draft.empty s) c.after
  have head : ∀ line ∈ (front ++ rest).head?, (annotation? s false line).isSome = true := by
    intro line first
    rw [← split] at first
    simpa [Cursor.line?, Option.mem_def.mp first] using accepted.symm
  have some_line : front ≠ [] := by
    rintro rfl
    -- The run would have to end before the first line, which is accepted.
    obtain rfl : Draft.empty s = e := by simpa [shownLines] using run.read
    cases rest with
    | nil => simp [Cursor.line?, split] at accepted
    | cons line rest =>
      have taken := head line (by simp)
      have ended := (ended_cons_of_shown (isBlankLine_of_annotation? taken)).mp run.ended
      change annotation? s false line = none at ended
      rw [ended] at taken
      cases taken
  have spans : Spans s front rest e.block := by
    refine ⟨some_line, ?_, e, run, rfl⟩
    intro line first
    have taken := head line (by simp [List.head?_append, Option.mem_def.mp first])
    exact isBlankLine_of_annotation? taken
  obtain ⟨next', read', position⟩ := spans.parser outside split
  obtain ⟨rfl, rfl⟩ : b = e.block ∧ next = next' := by simpa [read] using read'
  exact ⟨front, rest, split, spans, position⟩

end Block

variable {s : Settings} {lines : List Text}

theorem Section.IsFirst.start_within {base : Nat} {x : Section} (first : x.IsFirst s lines base) :
    1 ≤ x.start ∧ x.start ≤ lines.length := by
  obtain ⟨_, there, _⟩ := first.start.1.2
  exact lineAt?_within there

theorem Section.IsFirst.spans {base : Nat} {x : Section} (first : x.IsFirst s lines base) :
    ∃ front rest, lines.drop (x.start - 1) = front ++ rest ∧ Block.Spans s front rest x.block ∧
      x.stop = x.start + front.length := by
  have within := first.start_within
  obtain ⟨c, read, stop⟩ := first.block
  obtain ⟨front, rest, split, spans, position⟩ := Block.exists_spans rfl read
  rw [Cursor.position_atLine _ within.1 (by omega), stop] at position
  exact ⟨front, rest, split, spans, position⟩

theorem Block.Spans.outsideAt {front rest : List Text} {b : Block} {p : Nat}
    (spans : Block.Spans s front rest b) (counted : 1 ≤ p) (within : p ≤ lines.length)
    (split : lines.drop (p - 1) = front ++ rest) :
    ∃ c, Block.parser s (outsideAt s lines p) = some (b, c) ∧ c.position = p + front.length := by
  obtain ⟨c, read, position⟩ := spans.parser (c := DocHarvest.outsideAt s lines p) rfl split
  rw [Cursor.position_atLine _ counted (by omega)] at position
  exact ⟨c, read, position⟩

theorem Section.IsFirst.stop_within {base : Nat} {x : Section} (first : x.IsFirst s lines base) :
    x.start < x.stop ∧ x.stop ≤ lines.length + 1 := by
  have within := first.start_within
  obtain ⟨front, rest, split, spans, stop⟩ := first.spans
  have some_line := List.length_pos_iff.mpr spans.some_line
  have count := congrArg List.length split
  simp only [List.length_drop, List.length_append] at count
  omega

theorem Section.IsFirst.next_within {base : Nat} {x : Section} (first : x.IsFirst s lines base) :
    x.stop ≤ x.next ∧ x.next ≤ lines.length + 1 := by
  have stop := first.stop_within
  have definition := first.definition
  unfold Section.next
  split
  · next d sig found =>
    rw [found] at definition
    obtain ⟨from_stop, reach, _⟩ := definition.1.1
    omega
  · omega

theorem exists_decomposes (s : Settings) (lines : List Text) : ∃ xs, Decomposes s lines 1 xs := by
  obtain ⟨xs, sections, _⟩ := @scan_decomposes s lines 1 (Nat.le_refl 1)
  exact ⟨xs, sections⟩

theorem Decomposes.ofLines {xs : List Section} (sections : Decomposes s lines 1 xs) :
    Record.ofLines s lines = xs.filterMap (Section.record? s) := by
  obtain ⟨ys, others, records⟩ := @scan_decomposes s lines 1 (Nat.le_refl 1)
  rw [sections.unique others]
  exact records

theorem Decomposes.of_later {p n : Nat} {xs : List Section}
    (plain : ∀ q, p ≤ q → q < p + n → ¬ StartsBlock s lines q)
    (later : Decomposes s lines (p + n) xs) : Decomposes s lines p xs := by
  induction n with
  | zero => exact later
  | succ n ih =>
    apply ih
    · intro q from_p below
      exact plain q from_p (by omega)
    · exact later.earlier (plain (p + n) (by omega) (by omega))

end DocHarvest
