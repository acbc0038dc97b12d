import DocHarvest.Block
import DocHarvest.Proofs.Comment.Line

set_option autoImplicit false

namespace DocHarvest

open Comment

def shownLines (lines : List Text) : List Text := lines.filter fun line => !isBlankLine line

theorem shownLines_cons_of_blank {line : Text} (blank : isBlankLine line = true)
    (rest : List Text) : shownLines (line :: rest) = shownLines rest := by
  simp [shownLines, blank]

theorem shownLines_cons_of_shown {line : Text} (shown : isBlankLine line = false)
    (rest : List Text) : shownLines (line :: rest) = line :: shownLines rest := by
  simp [shownLines, shown]

/-- Nothing in `rest` carries a run on: after any blank lines, the text is over or a line is not
accepted. -/
def Ended (s : Settings) (inFence : Bool) (rest : List Text) : Prop :=
  ∀ line ∈ (rest.dropWhile isBlankLine).head?, annotation? s inFence line = none

theorem ended_cons_of_blank {s : Settings} {inFence : Bool} {line : Text} {rest : List Text}
    (blank : isBlankLine line = true) :
    Ended s inFence (line :: rest) ↔ Ended s inFence rest := by
  simp [Ended, blank]

theorem ended_cons_of_shown {s : Settings} {inFence : Bool} {line : Text} {rest : List Text}
    (shown : isBlankLine line = false) :
    Ended s inFence (line :: rest) ↔ annotation? s inFence line = none := by
  simp [Ended, shown]

namespace Draft

def read? (s : Settings) : Draft → List Text → Option Draft
  | d, [] => some d
  | d, line :: rest => (annotation? s d.inFence line).bind fun a => (d.add a).read? s rest

@[simp] theorem read?_nil (s : Settings) (d : Draft) : d.read? s [] = some d := rfl

@[simp] theorem read?_cons (s : Settings) (d : Draft) (line : Text) (rest : List Text) :
    d.read? s (line :: rest) =
      (annotation? s d.inFence line).bind fun a => (d.add a).read? s rest := rfl

theorem read?_append (s : Settings) (d : Draft) (lines rest : List Text) :
    d.read? s (lines ++ rest) = (d.read? s lines).bind fun e => e.read? s rest := by
  induction lines generalizing d with
  | nil => rfl
  | cons line lines ih => cases h : annotation? s d.inFence line <;> simp [h, ih]

structure Run (s : Settings) (d : Draft) (front rest : List Text) (e : Draft) : Prop where
  read : d.read? s (shownLines front) = some e
  last : ∀ line ∈ front.getLast?, isBlankLine line = false
  ended : Ended s e.inFence rest

theorem extend_of_ended {s : Settings} {d : Draft} {rest : List Text}
    (ended : Ended s d.inFence rest) (taken blanks : Nat) :
    d.extend s taken blanks rest = (d, taken) := by
  induction rest generalizing blanks with
  | nil => rfl
  | cons line rest ih =>
    cases blank : isBlankLine line with
    | true =>
      rw [ended_cons_of_blank blank] at ended
      simp [extend, blank, ih ended]
    | false =>
      rw [ended_cons_of_shown blank] at ended
      simp [extend, blank, ended]

theorem extend_of_run {s : Settings} {d e : Draft} {front rest : List Text}
    (run : Run s d front rest e) (taken blanks : Nat) :
    d.extend s taken blanks (front ++ rest) =
      (e, if front = [] then taken else taken + blanks + front.length) := by
  induction front generalizing d taken blanks with
  | nil =>
    have same : d = e := by simpa [shownLines] using run.read
    subst same
    simpa using extend_of_ended run.ended taken blanks
  | cons line front ih =>
    have later : ∀ l ∈ front.getLast?, isBlankLine l = false := by
      intro l hl
      exact run.last l (by simp_all [List.getLast?_cons])
    cases blank : isBlankLine line with
    | true =>
      -- The last line of a run is not blank, so more of it must follow this one.
      have more : front ≠ [] := by
        rintro rfl
        simpa [blank] using run.last line
      have read := run.read
      rw [shownLines_cons_of_blank blank] at read
      simp only [List.cons_append, extend, blank, if_true, ih ⟨read, later, run.ended⟩, more,
        if_false, List.cons_ne_nil, List.length_cons, Prod.mk.injEq, true_and]
      omega
    | false =>
      have read := run.read
      rw [shownLines_cons_of_shown blank, read?_cons, Option.bind_eq_some_iff] at read
      obtain ⟨a, said, read⟩ := read
      simp only [List.cons_append, extend, blank, said, ih ⟨read, later, run.ended⟩,
        List.cons_ne_nil, if_false, List.length_cons, Prod.mk.injEq, true_and, Bool.false_eq_true]
      split
      · simp_all
      · omega

theorem exists_run (s : Settings) (d : Draft) (lines : List Text) :
    ∃ front rest e, lines = front ++ rest ∧ Run s d front rest e := by
  induction lines generalizing d with
  | nil => exact ⟨[], [], d, rfl, rfl, by simp, by simp [Ended]⟩
  | cons line lines ih =>
    cases blank : isBlankLine line with
    | true =>
      obtain ⟨front, rest, e, rfl, run⟩ := ih d
      cases front with
      | nil =>
        -- Nothing follows the blank line that would make it part of the run.
        have ended := (ended_cons_of_blank blank).mpr run.ended
        exact ⟨[], line :: rest, e, rfl, run.read, by simp, ended⟩
      | cons first front =>
        refine ⟨line :: first :: front, rest, e, rfl, ?_, ?_, run.ended⟩
        · rw [shownLines_cons_of_blank blank]
          exact run.read
        · simpa [List.getLast?_cons] using run.last
    | false =>
      cases said : annotation? s d.inFence line with
      | none =>
        exact ⟨[], line :: lines, d, rfl, rfl, by simp, (ended_cons_of_shown blank).mpr said⟩
      | some a =>
        obtain ⟨front, rest, e, rfl, run⟩ := ih (d.add a)
        refine ⟨line :: front, rest, e, rfl, ?_, ?_, run.ended⟩
        · rw [shownLines_cons_of_shown blank, read?_cons, said]
          exact run.read
        · intro l hl
          cases front with
          | nil =>
            have same : line = l := by simpa using hl
            rw [← same]
            exact blank
          | cons first front => exact run.last l (by simpa [List.getLast?_cons] using hl)

end Draft

theorem Block.parser_isSome (s : Settings) (c : Cursor) : (Block.parser s c).isSome =
    (c.line?.bind fun line => annotation? s c.context.inFence line).isSome := by
  cases after : c.after with
  | nil => simp [Block.parser, Cursor.line?, after]
  | cons line rest =>
    cases said : annotation? s c.context.inFence line <;>
      simp [Block.parser, Cursor.line?, after, said]

theorem Block.parser_of_run {s : Settings} {c : Cursor} {front rest : List Text} {e : Draft}
    (prose : c.context.inFence = false) (lines : c.after = front ++ rest) (some_line : front ≠ [])
    (first : ∀ line ∈ front.head?, isBlankLine line = false)
    (run : Draft.Run s (Draft.empty s) front rest e) :
    Block.parser s c =
      some (e.block, (c.advance front.length).withContext (Context.outside s.defaultCodeLang)) := by
  obtain ⟨line, more, rfl⟩ := List.exists_cons_of_ne_nil some_line
  have extended := Draft.extend_of_run run 0 0
  have shown := first line (by simp)
  have read := run.read
  rw [shownLines_cons_of_shown shown, Draft.read?_cons, Option.bind_eq_some_iff] at read
  obtain ⟨a, said, _⟩ := read
  have outside : (Draft.empty s).inFence = false := rfl
  simp only [List.cons_append, Draft.extend, shown, said, Bool.false_eq_true, if_false,
    Nat.zero_add, List.cons_ne_nil] at extended
  rw [outside] at said
  simp [Block.parser, lines, prose, said, extended]

end DocHarvest
