import DocHarvest.Proofs.Comment.Acceptance
import DocHarvest.Proofs.Record.Sections

set_option autoImplicit false

namespace DocHarvest

open Comment

theorem shownLines_shownLines (lines : List Text) :
    shownLines (shownLines lines) = shownLines lines := by
  simp [shownLines]

theorem isBlankLine_of_mem_shownLines {lines : List Text} {line : Text}
    (member : line ∈ shownLines lines) : isBlankLine line = false := by
  simpa [shownLines] using (List.mem_filter.mp member).2

theorem head_shownLines {lines : List Text}
    (first : ∀ line ∈ lines.head?, isBlankLine line = false) :
    (shownLines lines).head? = lines.head? := by
  cases lines with
  | nil => rfl
  | cons line lines => rw [shownLines_cons_of_shown (first line (by simp))]; rfl

theorem ended_shownLines {s : Settings} {inFence : Bool} (rest : List Text) :
    Ended s inFence (shownLines rest) ↔ Ended s inFence rest := by
  induction rest with
  | nil => rfl
  | cons line rest ih =>
    cases blank : isBlankLine line with
    | true => rw [shownLines_cons_of_blank blank, ended_cons_of_blank blank, ih]
    | false =>
      rw [shownLines_cons_of_shown blank, ended_cons_of_shown blank, ended_cons_of_shown blank]

theorem Draft.Run.shown {s : Settings} {d e : Draft} {front rest : List Text}
    (run : Draft.Run s d front rest e) :
    Draft.Run s d (shownLines front) (shownLines rest) e where
  read := by rw [shownLines_shownLines]; exact run.read
  last line last := isBlankLine_of_mem_shownLines (List.mem_of_getLast? last)
  ended := (ended_shownLines rest).mpr run.ended

theorem shownLines_ne_nil {front : List Text} (some_line : front ≠ [])
    (first : ∀ line ∈ front.head?, isBlankLine line = false) : shownLines front ≠ [] := by
  intro nothing
  have head := head_shownLines first
  rw [nothing] at head
  exact some_line (List.head?_eq_none_iff.mp head.symm)

theorem Comment.isComment_of_annotation? {s : Settings} {inFence : Bool} {line : Text}
    (accepted : (annotation? s inFence line).isSome = true) : isComment line = true := by
  cases body : body? line with
  | none => simp [annotation?_of_body? body] at accepted
  | some t => simp [← isSome_body?, body]

theorem Draft.isComment_of_read? {s : Settings} {d e : Draft} {lines : List Text}
    (read : d.read? s lines = some e) : ∀ line ∈ lines, isComment line = true := by
  induction lines generalizing d with
  | nil => simp
  | cons line lines ih =>
    rw [read?_cons, Option.bind_eq_some_iff] at read
    obtain ⟨a, said, read⟩ := read
    intro l member
    rcases List.mem_cons.mp member with rfl | member
    · exact isComment_of_annotation? (by rw [said]; rfl)
    · exact ih read l member

theorem Draft.Run.exists_last {s : Settings} {d e : Draft} {front rest : List Text}
    (run : Draft.Run s d front rest e) (some_line : front ≠ []) :
    ∃ more last, front = more ++ [last] ∧ isComment last = true := by
  have shown := run.last (front.getLast some_line) (List.getLast?_eq_some_getLast some_line)
  have member : front.getLast some_line ∈ shownLines front :=
    List.mem_filter.mpr ⟨List.getLast_mem some_line, by simp [shown]⟩
  exact ⟨front.dropLast, _, (List.dropLast_append_getLast some_line).symm,
    isComment_of_read? run.read _ member⟩

def Cursor.dense (c : Cursor) : Cursor := Cursor.start (shownLines c.after) c.context

namespace Block

theorem isSome_parser_dense {s : Settings} {c : Cursor}
    (shown : ∀ line ∈ c.line?, isBlankLine line = false) :
    (parser s c.dense).isSome = (parser s c).isSome := by
  have head : c.dense.line? = c.line? := head_shownLines shown
  rw [parser_isSome, parser_isSome, head]
  rfl

theorem exists_run_of_parsed {s : Settings} {c next : Cursor} {b : Block}
    (outside : c.context.inFence = false) (read : parser s c = some (b, next)) :
    ∃ front rest e, c.after = front ++ rest ∧ front ≠ [] ∧
      (∀ line ∈ front.head?, isBlankLine line = false) ∧
      Draft.Run s (Draft.empty s) front rest e ∧ e.block = b ∧ next.after = rest ∧
      next.position = c.position + front.length := by
  obtain ⟨front, rest, split, spans, position⟩ := exists_spans outside read
  obtain ⟨e, run, block⟩ := spans.run
  have parsed := parser_of_run outside split spans.some_line spans.first run
  rw [read, Option.some.injEq, Prod.mk.injEq] at parsed
  refine ⟨front, rest, e, split, spans.some_line, spans.first, run, block, ?_, position⟩
  simp [parsed.2, Cursor.withContext, split]

theorem parser_dense_of_run {s : Settings} {c : Cursor} {front rest : List Text} {e : Draft}
    (outside : c.context.inFence = false) (split : c.after = front ++ rest) (some_line : front ≠ [])
    (first : ∀ line ∈ front.head?, isBlankLine line = false)
    (run : Draft.Run s (Draft.empty s) front rest e) :
    ∃ next, parser s c.dense = some (e.block, next) ∧ next.after = shownLines rest := by
  have dense : c.dense.after = shownLines front ++ shownLines rest := by
    simp [Cursor.dense, Cursor.start, split, shownLines]
  have shown : ∀ line ∈ (shownLines front).head?, isBlankLine line = false :=
    fun line member => isBlankLine_of_mem_shownLines (List.mem_of_mem_head? member)
  have parsed := parser_of_run (c := c.dense) outside dense (shownLines_ne_nil some_line first)
    shown run.shown
  exact ⟨_, parsed, by simp [Cursor.withContext, dense]⟩

end Block

/-- A block is read as if the lines from it on held no blank one. It ends behind the last comment
line of its run, before any blank line that follows. -/
theorem parser_passes_over_blank_lines (s : Settings) (c : Cursor)
    (outside : c.context.inFence = false)
    (shown : ∀ line ∈ c.line?, isBlankLine line = false) :
    ((Block.parser s c).isSome = true ↔ (Block.parser s c.dense).isSome = true) ∧
    ∀ b next, Block.parser s c = some (b, next) →
      (∃ next', Block.parser s c.dense = some (b, next') ∧ next'.after = shownLines next.after) ∧
      ∃ front last rest e, c.after = front ++ last :: rest ∧ isComment last = true ∧
        Draft.Run s (Draft.empty s) (front ++ [last]) rest e ∧
        next.position = c.position + front.length + 1 ∧ next.after = rest := by
  refine ⟨by rw [Block.isSome_parser_dense shown], ?_⟩
  intro b next read
  obtain ⟨front, rest, e, split, some_line, first, run, rfl, left, position⟩ :=
    Block.exists_run_of_parsed outside read
  constructor
  · rw [left]
    exact Block.parser_dense_of_run outside split some_line first run
  · obtain ⟨more, last, rfl, comment⟩ := run.exists_last some_line
    refine ⟨more, last, rest, e, by simpa using split, comment, run, ?_, left⟩
    simpa [Nat.add_assoc] using position

-- Blank lines stand in the fence and behind the block.
theorem parser_passes_over_blank_lines_sample :
    let s := Settings.default
    let lines := ["---Prints.", "", "---```", "--- a", " \t", "--- b", "---```", "", "f = 1"].map
      String.toList
    let c := Cursor.start lines (Context.outside s.defaultCodeLang)
    let b : Block := { Block.empty s with
      description := ["Prints.".toList], examples := [⟨"lua".toList, "a\nb".toList⟩] }
    c.context.inFence = false ∧ (∀ line ∈ c.line?, isBlankLine line = false) ∧
      (∃ next, Block.parser s c = some (b, next) ∧ next.position = 8) ∧
      ∃ next, Block.parser s c.dense = some (b, next) ∧ next.after = ["f = 1".toList] := by
  intro s lines c b
  have shown : ∀ line ∈ c.line?, isBlankLine line = false := by decide
  have read : Block.parser s c = some (b, c.advance 7) := by decide
  obtain ⟨⟨next, same, left⟩, _⟩ := (parser_passes_over_blank_lines s c rfl shown).2 b _ read
  exact ⟨rfl, shown, ⟨_, read, by decide⟩, next, same, left.trans (by decide)⟩

end DocHarvest
