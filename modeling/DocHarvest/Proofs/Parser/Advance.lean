import DocHarvest.Proofs.Parser.Window
import DocHarvest.Signature

set_option autoImplicit false

namespace DocHarvest

theorem Cursor.position_le (c : Cursor) : c.position ≤ c.lines.length + 1 := by
  have count := c.position_add_length
  omega

theorem Cursor.le_position_advance (c : Cursor) (n : Nat) :
    c.position ≤ (c.advance n).position := by
  rw [c.position_advance n]
  omega

namespace Parser

variable {α β : Type}

structure KeepsPlace (p : Parser α) : Prop where
  lines {c c' : Cursor} {a : α} : p c = some (a, c') → c'.lines = c.lines
  forward {c c' : Cursor} {a : α} : p c = some (a, c') → c.position ≤ c'.position
  within {c c' : Cursor} {a : α} : p c = some (a, c') → c'.position ≤ c.lines.length + 1

-- A cursor cannot leave its lines, so the last bound follows from the first equation.
theorem KeepsPlace.of_forward {p : Parser α} (follows : ∀ c a c', p c = some (a, c') →
    c'.lines = c.lines ∧ c.position ≤ c'.position) : KeepsPlace p where
  lines read := (follows _ _ _ read).1
  forward read := (follows _ _ _ read).2
  within read := (follows _ _ _ read).1 ▸ Cursor.position_le _

-- With the lines the same, a place further on is one with fewer lines left.
theorem KeepsPlace.moved_iff {p : Parser α} (keeps : KeepsPlace p) {c c' : Cursor} {a : α}
    (read : p c = some (a, c')) :
    c'.after.length < c.after.length ↔ c.position < c'.position := by
  have here := c.position_add_length
  have there := c'.position_add_length
  rw [keeps.lines read] at there
  omega

/-- Parsers put together from single lines and definitions. What follows in a `bind` may be any
parser that keeps its place. -/
inductive Combined : {α : Type} → Parser α → Prop where
  | satisfy (test : Text → Bool) : Combined (satisfy test)
  | matching {α : Type} (rule : Text → Option α) : Combined (matching rule)
  | definition : Combined Signature.definition
  | map {α β : Type} (f : α → β) {p : Parser α} : Combined p → Combined (map f p)
  | bind {α β : Type} {p : Parser α} {next : α → Parser β} : Combined p →
      (∀ a, KeepsPlace (next a)) → Combined (bind p next)
  | choice {α : Type} {ps : List (Parser α)} : (∀ p ∈ ps, Combined p) → Combined (choice ps)
  | many {α : Type} {p : Parser α} : Combined p → Combined (many p)
  | optional {α : Type} {p : Parser α} : Combined p → Combined (optional p)
  | scanAhead {α : Type} (limit : Nat) {p : Parser α} : Combined p → Combined (scanAhead limit p)
  | scanAheadBy {α : Type} (limit : Number) {p : Parser α} : Combined p →
      Combined (scanAheadBy limit p)

-- The rounds of a repetition: how often `p` is applied, what it gives and where it stops.
inductive Repeats (p : Parser α) : Cursor → Nat → List α → Cursor → Prop where
  | failed {c : Cursor} : p c = none → Repeats p c 1 [] c
  | stayed {c c' : Cursor} {a : α} : p c = some (a, c') → ¬ c.position < c'.position →
      Repeats p c 1 [a] c'
  | moved {c c' last : Cursor} {a : α} {n : Nat} {as : List α} : p c = some (a, c') →
      c.position < c'.position → Repeats p c' n as last → Repeats p c (n + 1) (a :: as) last

theorem KeepsPlace.repeats {p : Parser α} (keeps : KeepsPlace p) (c : Cursor) :
    ∃ n, Repeats p c n (values p c).1 (values p c).2 := by
  fun_induction values p c with
  | case1 c failed => exact ⟨1, .failed failed⟩
  | case2 c a c' read shorter as last rest ih =>
    obtain ⟨n, rounds⟩ := ih
    rw [rest] at rounds
    exact ⟨n + 1, .moved read ((keeps.moved_iff read).mp shorter) rounds⟩
  | case3 c a c' read same =>
    exact ⟨1, .stayed read fun moved => same ((keeps.moved_iff read).mpr moved)⟩

theorem Repeats.bound {p : Parser α} (keeps : KeepsPlace p) {c last : Cursor} {n : Nat}
    {as : List α} (rounds : Repeats p c n as last) :
    last.lines = c.lines ∧ c.position ≤ last.position ∧ n + c.position ≤ c.lines.length + 2 := by
  induction rounds with
  | @failed c _ =>
    have within := c.position_le
    exact ⟨rfl, Nat.le_refl _, by omega⟩
  | @stayed c c' a read _ =>
    have within := c.position_le
    exact ⟨keeps.lines read, keeps.forward read, by omega⟩
  | @moved c c' last a n as read further _ ih =>
    obtain ⟨lines, forward, bound⟩ := ih
    rw [keeps.lines read] at lines bound
    exact ⟨lines, by omega, by omega⟩

namespace KeepsPlace

variable {p : Parser α}

theorem matching (rule : Text → Option α) : KeepsPlace (matching rule) := by
  apply of_forward
  intro c a c' read
  unfold Parser.matching at read
  split at read
  · cases read
  · obtain ⟨_, _, same⟩ := Option.map_eq_some_iff.mp read
    cases same
    exact ⟨c.lines_advance 1, c.le_position_advance 1⟩

theorem definition : KeepsPlace Signature.definition := by
  apply of_forward
  intro c sig c' read
  have line := matching fun line => Signature.ofLine? line c.position
  exact ⟨line.lines read, line.forward read⟩

theorem map (f : α → β) (keeps : KeepsPlace p) : KeepsPlace (map f p) := by
  apply of_forward
  intro c b c' read
  obtain ⟨⟨a, d⟩, inner, same⟩ := Option.map_eq_some_iff.mp read
  cases same
  exact ⟨keeps.lines inner, keeps.forward inner⟩

theorem bind {next : α → Parser β} (keeps : KeepsPlace p) (later : ∀ a, KeepsPlace (next a)) :
    KeepsPlace (bind p next) := by
  apply of_forward
  intro c b c' read
  unfold Parser.bind at read
  split at read
  · cases read
  · next a d first =>
    have lines := (later a).lines read
    have forward := (later a).forward read
    rw [keeps.lines first] at lines
    exact ⟨lines, Nat.le_trans (keeps.forward first) forward⟩

theorem choice {ps : List (Parser α)} (keep : ∀ p ∈ ps, KeepsPlace p) :
    KeepsPlace (choice ps) := by
  induction ps with
  | nil => exact of_forward fun _ _ _ read => nomatch read
  | cons p ps ih =>
    apply of_forward
    intro c a c' read
    unfold Parser.choice at read
    split at read
    · next r first =>
      cases read
      have here := keep p (by simp)
      exact ⟨here.lines first, here.forward first⟩
    · have others := ih fun q member => keep q (by simp [member])
      exact ⟨others.lines read, others.forward read⟩

theorem many (keeps : KeepsPlace p) : KeepsPlace (many p) := by
  apply of_forward
  intro c as last read
  obtain ⟨n, rounds⟩ := keeps.repeats c
  have same : values p c = (as, last) := Option.some.inj read
  rw [same] at rounds
  obtain ⟨lines, forward, _⟩ := rounds.bound keeps
  exact ⟨lines, forward⟩

theorem optional (keeps : KeepsPlace p) : KeepsPlace (optional p) := by
  apply of_forward
  intro c a c' read
  unfold Parser.optional at read
  split at read
  · next first =>
    cases read
    exact ⟨keeps.lines first, keeps.forward first⟩
  · cases read
    exact ⟨rfl, Nat.le_refl _⟩

theorem scanAhead (limit : Nat) (keeps : KeepsPlace p) : KeepsPlace (scanAhead limit p) := by
  apply of_forward
  intro c a c' read
  obtain ⟨k, _, _, hit, _⟩ := scanAhead_eq_some read
  have lines := keeps.lines hit
  rw [c.lines_advance k] at lines
  exact ⟨lines, Nat.le_trans (c.le_position_advance k) (keeps.forward hit)⟩

theorem scanAheadBy (limit : Number) (keeps : KeepsPlace p) : KeepsPlace (scanAheadBy limit p) :=
  of_forward fun c _ _ read =>
    have scan := keeps.scanAhead (limit.countBelow c.after.length)
    ⟨scan.lines read, scan.forward read⟩

end KeepsPlace

theorem Combined.keepsPlace {p : Parser α} (combined : Combined p) : KeepsPlace p := by
  induction combined with
  | satisfy test => exact .matching _
  | matching rule => exact .matching rule
  | definition => exact .definition
  | map f _ ih => exact ih.map f
  | bind _ later ih => exact ih.bind later
  | choice _ ih => exact .choice ih
  | many _ ih => exact ih.many
  | optional _ ih => exact ih.optional
  | scanAhead limit _ ih => exact ih.scanAhead limit
  | scanAheadBy limit _ ih => exact ih.scanAheadBy limit

end Parser

end DocHarvest
