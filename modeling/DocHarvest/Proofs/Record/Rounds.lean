import DocHarvest.Proofs.Parser.Advance
import DocHarvest.Proofs.Record.Decomposition

set_option autoImplicit false

namespace DocHarvest

open DocHarvest.Parser

theorem Block.parser_keepsPlace (s : Settings) : KeepsPlace (Block.parser s) := by
  apply KeepsPlace.of_forward
  intro c b c' read
  obtain ⟨place, moved⟩ := parser_next read
  refine ⟨?_, Nat.le_of_lt moved⟩
  rw [place, Cursor.lines_atLine]

theorem Signature.findWithin_keepsPlace (lookahead : Nat) : KeepsPlace (findWithin lookahead) :=
  KeepsPlace.definition.scanAhead lookahead

namespace Record

-- One round at a place before the end: what it lists, and where the next round starts.
def round (s : Settings) (c : Cursor) : List Record × Cursor :=
  match Block.parser s c with
  | none => ([], c.advance 1)
  | some (block, c₁) =>
    match Signature.findWithin s.lookahead c₁ with
    | none => ([], c₁)
    | some (sig, c₂) =>
      (if isPrivate s.privatePrefix sig.name then [] else [ofParts s sig block], c₂)

variable {s : Settings}

theorem scan_eq_round {c : Cursor} (inside : c.after ≠ []) :
    scan s c = (round s c).1 ++ scan s (round s c).2 := by
  cases read : Block.parser s c with
  | none => simp [scan_of_no_block inside read, round, read]
  | some result =>
    obtain ⟨block, c₁⟩ := result
    rw [scan_of_block inside read]
    cases found : Signature.findWithin s.lookahead c₁ with
    | none => simp [round, read, found]
    | some result =>
      by_cases hidden : isPrivate s.privatePrefix result.1.name = true <;>
        simp [round, read, found, hidden]

theorem round_moves {c : Cursor} (inside : c.after ≠ []) :
    (round s c).2.lines = c.lines ∧ c.position < (round s c).2.position := by
  cases read : Block.parser s c with
  | none =>
    have moved := c.position_advance 1
    have some_left := List.length_pos_iff.mpr inside
    simp only [round, read]
    exact ⟨c.lines_advance 1, by omega⟩
  | some result =>
    obtain ⟨block, c₁⟩ := result
    have lines := (Block.parser_keepsPlace s).lines read
    have moved := (parser_next read).2
    cases found : Signature.findWithin s.lookahead c₁ with
    | none =>
      simp only [round, read, found]
      exact ⟨lines, moved⟩
    | some result =>
      obtain ⟨sig, c₂⟩ := result
      have keeps := Signature.findWithin_keepsPlace s.lookahead
      have later := keeps.forward found
      simp only [round, read, found]
      exact ⟨(keeps.lines found).trans lines, by omega⟩

-- The places at which the rounds of a scan start, up to the end of the text.
inductive Rounds (s : Settings) : Cursor → List Cursor → Prop where
  | ended {c : Cursor} : c.atEnd = true → Rounds s c []
  | round {c : Cursor} {places : List Cursor} : c.atEnd = false →
      Rounds s (round s c).2 places → Rounds s c (c :: places)

theorem after_ne_nil_of_atEnd {c : Cursor} (inside : c.atEnd = false) : c.after ≠ [] := by
  simpa [Cursor.atEnd] using inside

theorem exists_rounds (s : Settings) (c : Cursor) : ∃ places, Rounds s c places := by
  induction left : c.after.length using Nat.strong_induction_on generalizing c with
  | _ n ih =>
    cases inside : c.atEnd with
    | true => exact ⟨[], .ended inside⟩
    | false =>
      obtain ⟨lines, moved⟩ := round_moves (s := s) (after_ne_nil_of_atEnd inside)
      have here := c.position_add_length
      have there := (Record.round s c).2.position_add_length
      rw [lines] at there
      obtain ⟨places, rounds⟩ := ih _ (by omega) (Record.round s c).2 rfl
      exact ⟨c :: places, .round inside rounds⟩

theorem Rounds.ordered {c : Cursor} {places : List Cursor} (rounds : Rounds s c places) :
    places.Pairwise (fun a b => a.position < b.position) ∧
      (∀ d ∈ places, d.lines = c.lines ∧ c.position ≤ d.position) ∧
      places.length + c.position ≤ c.lines.length + 1 := by
  induction rounds with
  | @ended c _ => simpa using c.position_le
  | @round c places inside _ ih =>
    obtain ⟨ordered, later, bound⟩ := ih
    obtain ⟨lines, moved⟩ := round_moves (s := s) (after_ne_nil_of_atEnd inside)
    rw [lines] at later bound
    refine ⟨List.pairwise_cons.mpr ⟨?_, ordered⟩, ?_, ?_⟩
    · intro d member
      have further := (later d member).2
      omega
    · intro d member
      rcases List.mem_cons.mp member with rfl | member
      · exact ⟨rfl, Nat.le_refl _⟩
      · exact ⟨(later d member).1, by have further := (later d member).2; omega⟩
    · rw [List.length_cons]
      omega

theorem Rounds.scan {c : Cursor} {places : List Cursor} (rounds : Rounds s c places) :
    scan s c = places.flatMap fun d => (Record.round s d).1 := by
  induction rounds with
  | ended at_end => exact scan_of_end (by simpa [Cursor.atEnd] using at_end)
  | round inside _ ih => rw [scan_eq_round (after_ne_nil_of_atEnd inside), ih, List.flatMap_cons]

end Record

/-- Combined parsers stay on their lines and never go back; a repetition always succeeds and ends
within the lines that are left; a block takes at least one line; and so the scan of a text, which
moves on in every round, ends. -/
theorem parsers_keep_place_and_scan_ends :
    (∀ (α : Type) (p : Parser α), Combined p → KeepsPlace p) ∧
    (∀ (α : Type) (p : Parser α), KeepsPlace p → ∀ c, ∃ n as last,
      many p c = some (as, last) ∧ Repeats p c n as last ∧ n ≤ c.lines.length + 2 - c.position) ∧
    (∀ s, KeepsPlace (Block.parser s) ∧
      ∀ c b c', Block.parser s c = some (b, c') → c.position < c'.position) ∧
    (∀ s c, ∃ places, Record.Rounds s c places ∧
      places.Pairwise (fun a b => a.position < b.position) ∧
      places.length ≤ c.lines.length + 1 - c.position ∧
      Record.scan s c = places.flatMap fun d => (Record.round s d).1) := by
  refine ⟨fun α p combined => combined.keepsPlace, ?_, ?_, ?_⟩
  · intro α p keeps c
    obtain ⟨n, rounds⟩ := keeps.repeats c
    have bound := (rounds.bound keeps).2.2
    exact ⟨n, _, _, rfl, rounds, by omega⟩
  · intro s
    exact ⟨Block.parser_keepsPlace s, fun c b c' read => (parser_next read).2⟩
  · intro s c
    obtain ⟨places, rounds⟩ := Record.exists_rounds s c
    obtain ⟨ordered, _, bound⟩ := rounds.ordered
    exact ⟨places, rounds, ordered, by omega, rounds.scan⟩

end DocHarvest
