import DocHarvest.Proofs.Block.Run
import DocHarvest.Proofs.Parser.Window
import DocHarvest.Record
import Mathlib.Order.Bounds.Basic

set_option autoImplicit false

namespace DocHarvest

def lineAt? (lines : List Text) : Nat → Option Text
  | 0 => none
  | q + 1 => lines[q]?

def StartsBlock (s : Settings) (lines : List Text) (q : Nat) : Prop :=
  ∃ line ∈ lineAt? lines q, (Comment.annotation? s false line).isSome = true

def Defines (lines : List Text) (q : Nat) : Prop :=
  ∃ line ∈ lineAt? lines q, (Signature.ofLine? line q).isSome = true

def definitionsFrom (s : Settings) (lines : List Text) (p : Nat) : Set Nat :=
  {q | p ≤ q ∧ q ≤ min (p + s.lookahead - 1) lines.length ∧ Defines lines q}

def FirstDefinition (s : Settings) (lines : List Text) (p : Nat) : Option (Nat × Signature) → Prop
  | none => definitionsFrom s lines p = ∅
  | some (d, sig) => IsLeast (definitionsFrom s lines p) d ∧
    ∃ line ∈ lineAt? lines d, Signature.ofLine? line d = some sig

-- A block on the lines from `start` up to `stop`, and the definition that follows it with the
-- number of its line.
structure Section where
  start : Nat
  stop : Nat
  block : Block
  definition : Option (Nat × Signature)

namespace Section

def next (x : Section) : Nat :=
  match x.definition with
  | some (d, _) => d + 1
  | none => x.stop

structure IsFirst (s : Settings) (lines : List Text) (base : Nat) (x : Section) : Prop where
  start : IsLeast {q | base ≤ q ∧ StartsBlock s lines q} x.start
  block : ∃ c, Block.parser s (Cursor.atLine lines (Context.outside s.defaultCodeLang) x.start) =
    some (x.block, c) ∧ c.position = x.stop
  definition : FirstDefinition s lines x.stop x.definition

def record? (s : Settings) (x : Section) : Option Record :=
  x.definition.bind fun (_, sig) =>
    if isPrivate s.privatePrefix sig.name then none else some (Record.ofParts s sig x.block)

end Section

inductive Decomposes (s : Settings) (lines : List Text) : Nat → List Section → Prop where
  | done {base : Nat} : (∀ q, base ≤ q → ¬ StartsBlock s lines q) → Decomposes s lines base []
  | step {base : Nat} {x : Section} {xs : List Section} : x.IsFirst s lines base →
      Decomposes s lines x.next xs → Decomposes s lines base (x :: xs)

namespace Record

theorem scan_of_end {s : Settings} {c : Cursor} (at_end : c.after = []) : scan s c = [] := by
  rw [scan]
  split
  · rfl
  · simp_all

theorem scan_of_no_block {s : Settings} {c : Cursor} (inside : c.after ≠ [])
    (failed : Block.parser s c = none) : scan s c = scan s (c.advance 1) := by
  rw [scan]
  split
  · simp_all
  · split
    · rfl
    · simp_all

theorem scan_of_block {s : Settings} {c c₁ : Cursor} {block : Block} (inside : c.after ≠ [])
    (read : Block.parser s c = some (block, c₁)) : scan s c =
      match Signature.findWithin s.lookahead c₁ with
      | none => scan s c₁
      | some (sig, c₂) =>
        if isPrivate s.privatePrefix sig.name then scan s c₂
        else ofParts s sig block :: scan s c₂ := by
  rw [scan]
  split
  · simp_all
  · split
    · simp_all
    · next block' c' read' =>
      obtain ⟨rfl, rfl⟩ : block = block' ∧ c₁ = c' := by simpa [read] using read'
      split
      · next missing => simp [missing]
      · next found =>
        simp only [found]
        rfl

end Record

variable {s : Settings} {lines : List Text}

abbrev outsideAt (s : Settings) (lines : List Text) (p : Nat) : Cursor :=
  Cursor.atLine lines (Context.outside s.defaultCodeLang) p

theorem line?_outsideAt {p : Nat} (counted : 1 ≤ p) :
    (outsideAt s lines p).line? = lineAt? lines p := by
  obtain ⟨q, rfl⟩ : ∃ q, p = q + 1 := ⟨p - 1, by omega⟩
  simp [lineAt?, Cursor.line?]

theorem lineAt?_isSome_iff {p : Nat} (counted : 1 ≤ p) :
    (lineAt? lines p).isSome = true ↔ p ≤ lines.length := by
  obtain ⟨q, rfl⟩ : ∃ q, p = q + 1 := ⟨p - 1, by omega⟩
  rw [lineAt?, isSome_getElem?]
  exact Iff.rfl

theorem lineAt?_within {p : Nat} {line : Text} (there : line ∈ lineAt? lines p) :
    1 ≤ p ∧ p ≤ lines.length := by
  cases p with
  | zero => simp [lineAt?] at there
  | succ q =>
    have found : (lineAt? lines (q + 1)).isSome = true := by rw [Option.mem_def.mp there]; rfl
    exact ⟨by omega, (lineAt?_isSome_iff (by omega)).mp found⟩

theorem parser_isSome_iff {p : Nat} (counted : 1 ≤ p) :
    (Block.parser s (outsideAt s lines p)).isSome = true ↔ StartsBlock s lines p := by
  rw [Block.parser_isSome, line?_outsideAt counted]
  change ((lineAt? lines p).bind (Comment.annotation? s false)).isSome = true ↔ _
  cases line : lineAt? lines p <;> simp [StartsBlock, line]

theorem parser_next {c c₁ : Cursor} {b : Block} (read : Block.parser s c = some (b, c₁)) :
    c₁ = outsideAt s c.lines c₁.position ∧ c.position < c₁.position := by
  have progress := Block.parser_progresses s c b c₁ read
  have place : c₁.lines = c.lines ∧ c₁.context = Context.outside s.defaultCodeLang := by
    unfold Block.parser at read
    split at read
    · cases read
    · split at read
      · cases read
      · simp only [Option.some.injEq, Prod.mk.injEq] at read
        obtain ⟨_, rfl⟩ := read
        exact ⟨Cursor.lines_advance c _, rfl⟩
  constructor
  · have same := Cursor.eq_atLine c₁
    rwa [place.1, place.2] at same
  · have here := Cursor.position_add_length c
    have there := Cursor.position_add_length c₁
    rw [place.1] at there
    omega

theorem Signature.definition_eq_bind (c : Cursor) : Signature.definition c =
    c.line?.bind fun line => (Signature.ofLine? line c.position).map fun sig =>
      (sig, c.advance 1) := by
  rw [Signature.definition, Parser.matching]
  cases c.line? <;> rfl

theorem definition_outsideAt {p : Nat} (counted : 1 ≤ p) (within : p ≤ lines.length + 1) :
    Signature.definition (outsideAt s lines p) =
      (lineAt? lines p).bind fun line => (Signature.ofLine? line p).map fun sig =>
        (sig, outsideAt s lines (p + 1)) := by
  have head : (outsideAt s lines p).line? = lineAt? lines p := line?_outsideAt counted
  have position : (outsideAt s lines p).position = p := Cursor.position_atLine _ counted within
  have next : (outsideAt s lines p).advance 1 = outsideAt s lines (p + 1) :=
    Cursor.advance_atLine _ _ counted 1
  rw [Signature.definition_eq_bind, position, next, head]

theorem definition_isSome_iff {p : Nat} (counted : 1 ≤ p) (within : p ≤ lines.length + 1) :
    (Signature.definition (outsideAt s lines p)).isSome = true ↔ Defines lines p := by
  rw [definition_outsideAt counted within]
  cases line : lineAt? lines p <;> simp [Defines, line]

theorem findWithin_eq_some {p : Nat} {sig : Signature} {c : Cursor} (counted : 1 ≤ p)
    (found : Signature.findWithin s.lookahead (outsideAt s lines p) = some (sig, c)) :
    ∃ d, FirstDefinition s lines p (some (d, sig)) ∧ c = outsideAt s lines (d + 1) := by
  obtain ⟨k, within, before_end, hit, misses⟩ := Parser.scanAhead_eq_some found
  simp only [Cursor.after_atLine, List.length_drop] at before_end
  rw [Cursor.advance_atLine _ _ counted] at hit
  have defines : Defines lines (p + k) := by
    rw [← definition_isSome_iff (s := s) (by omega) (by omega), hit]
    rfl
  rw [definition_outsideAt (by omega) (by omega), Option.bind_eq_some_iff] at hit
  obtain ⟨line, there, read⟩ := hit
  simp only [Option.map_eq_some_iff, Prod.mk.injEq] at read
  obtain ⟨_, read, rfl, rfl⟩ := read
  refine ⟨p + k, ⟨⟨⟨by omega, by omega, defines⟩, ?_⟩, line, there, read⟩, rfl⟩
  -- A definition on an earlier line would have been found there.
  rintro q ⟨from_p, _, defined⟩
  by_contra earlier
  have miss := misses (q - p) (by omega)
  rw [Cursor.advance_atLine _ _ counted, show p + (q - p) = q by omega] at miss
  rw [← definition_isSome_iff (s := s) (by omega) (by omega), miss] at defined
  simp at defined

theorem findWithin_eq_none {p : Nat} (counted : 1 ≤ p)
    (missing : Signature.findWithin s.lookahead (outsideAt s lines p) = none) :
    FirstDefinition s lines p none := by
  change definitionsFrom s lines p = ∅
  rw [Set.eq_empty_iff_forall_notMem]
  rintro q ⟨from_p, bounded, defined⟩
  have miss := Parser.scanAhead_eq_none missing (k := q - p) (by omega)
    (by simp only [Cursor.after_atLine, List.length_drop]; omega)
  rw [Cursor.advance_atLine _ _ counted, show p + (q - p) = q by omega] at miss
  rw [← definition_isSome_iff (s := s) (by omega) (by omega), miss] at defined
  simp at defined

theorem Decomposes.earlier {p : Nat} {xs : List Section} (plain : ¬ StartsBlock s lines p)
    (later : Decomposes s lines (p + 1) xs) : Decomposes s lines p xs := by
  have shift (q : Nat) (starts : StartsBlock s lines q) (from_p : p ≤ q) : p + 1 ≤ q := by
    have moved : q ≠ p := by
      rintro rfl
      exact plain starts
    omega
  cases later with
  | done none_left =>
    exact .done fun q from_p starts => none_left q (shift q starts from_p) starts
  | step first rest =>
    refine .step ⟨⟨⟨?_, first.start.1.2⟩, ?_⟩, first.block, first.definition⟩ rest
    · have := first.start.1.1
      omega
    · rintro q ⟨from_p, starts⟩
      exact first.start.2 ⟨shift q starts from_p, starts⟩

-- The scan moves from section to section; between them it passes lines that start no block.
theorem scan_decomposes {p : Nat} (counted : 1 ≤ p) : ∃ xs, Decomposes s lines p xs ∧
    Record.scan s (outsideAt s lines p) = xs.filterMap (Section.record? s) := by
  induction remaining : lines.length + 1 - p using Nat.strong_induction_on generalizing p with
  | _ n ih =>
    by_cases inside : p ≤ lines.length
    · have some_left : (outsideAt s lines p).after ≠ [] := by
        simp only [Cursor.after_atLine, ne_eq, List.drop_eq_nil_iff]
        omega
      cases read : Block.parser s (outsideAt s lines p) with
      | none =>
        have plain : ¬ StartsBlock s lines p := by
          rw [← parser_isSome_iff counted, read]
          simp
        obtain ⟨xs, later, records⟩ := ih _ (by omega) (p := p + 1) (by omega) rfl
        refine ⟨xs, later.earlier plain, ?_⟩
        rw [Record.scan_of_no_block some_left read, Cursor.advance_atLine _ _ counted, records]
      | some result =>
        obtain ⟨block, c⟩ := result
        have starts : StartsBlock s lines p := by
          rw [← parser_isSome_iff counted, read]
          rfl
        have first : IsLeast {q | p ≤ q ∧ StartsBlock s lines q} p :=
          ⟨⟨Nat.le_refl p, starts⟩, fun q here => here.1⟩
        obtain ⟨place, moved⟩ := parser_next read
        rw [Cursor.lines_atLine] at place
        rw [Cursor.position_atLine _ counted (by omega)] at moved
        rw [Record.scan_of_block some_left read]
        cases found : Signature.findWithin s.lookahead c with
        | none =>
          -- Without a definition the search goes on right after the block.
          rw [place] at found
          have missing := findWithin_eq_none (by omega) found
          obtain ⟨xs, later, records⟩ := ih _ (by omega) (p := c.position) (by omega) rfl
          refine ⟨⟨p, c.position, block, none⟩ :: xs,
            .step ⟨first, ⟨c, read, rfl⟩, missing⟩ later, ?_⟩
          simp only
          rw [place, records]
          rfl
        | some result =>
          obtain ⟨sig, c₂⟩ := result
          rw [place] at found
          obtain ⟨d, definition, rfl⟩ := findWithin_eq_some (by omega) found
          have reach := definition.1.1.1
          obtain ⟨xs, later, records⟩ := ih _ (by omega) (p := d + 1) (by omega) rfl
          refine ⟨⟨p, c.position, block, some (d, sig)⟩ :: xs,
            .step ⟨first, ⟨c, read, rfl⟩, definition⟩ later, ?_⟩
          by_cases hidden : isPrivate s.privatePrefix sig.name = true <;>
            simp [Section.record?, hidden, records]
    · have at_end : (outsideAt s lines p).after = [] := by
        simp only [Cursor.after_atLine, List.drop_eq_nil_iff]
        omega
      refine ⟨[], .done ?_, Record.scan_of_end at_end⟩
      rintro q from_p ⟨line, there, _⟩
      have within := lineAt?_within there
      omega

theorem FirstDefinition.unique {p : Nat} {x y : Option (Nat × Signature)}
    (hx : FirstDefinition s lines p x) (hy : FirstDefinition s lines p y) : x = y := by
  match x, y with
  | none, none => rfl
  | none, some (d, _) =>
    have member := hy.1.1
    simp only [FirstDefinition] at hx
    simp [hx] at member
  | some (d, _), none =>
    have member := hx.1.1
    simp only [FirstDefinition] at hy
    simp [hy] at member
  | some (d, sig), some (d', sig') =>
    obtain ⟨least, line, there, read⟩ := hx
    obtain ⟨least', line', there', read'⟩ := hy
    obtain rfl : d = d' := least.unique least'
    obtain rfl : line = line' := by simpa [Option.mem_def.mp there] using there'
    obtain rfl : sig = sig' := by simpa [read] using read'
    rfl

theorem Section.IsFirst.unique {base : Nat} {x y : Section} (hx : x.IsFirst s lines base)
    (hy : y.IsFirst s lines base) : x = y := by
  obtain ⟨start, stop, block, definition⟩ := x
  obtain ⟨start', stop', block', definition'⟩ := y
  obtain rfl : start = start' := hx.start.unique hy.start
  obtain ⟨c, read, rfl⟩ := hx.block
  obtain ⟨c', read', rfl⟩ := hy.block
  obtain ⟨rfl, rfl⟩ : block = block' ∧ c = c' := by simpa [read] using read'
  obtain rfl : definition = definition' := hx.definition.unique hy.definition
  rfl

theorem Decomposes.unique {base : Nat} {xs ys : List Section} (hx : Decomposes s lines base xs)
    (hy : Decomposes s lines base ys) : xs = ys := by
  induction hx generalizing ys with
  | done none_left =>
    cases hy with
    | done _ => rfl
    | step first _ => exact absurd first.start.1.2 (none_left _ first.start.1.1)
  | step first _ ih =>
    cases hy with
    | done none_left => exact absurd first.start.1.2 (none_left _ first.start.1.1)
    | step first' rest' =>
      obtain rfl := first.unique first'
      rw [ih rest']

theorem Signature.line_of_ofLine? {line : Text} {n : Int} {sig : Signature}
    (read : Signature.ofLine? line n = some sig) : sig.line = n := by
  obtain ⟨_, _, rfl⟩ := Option.map_eq_some_iff.mp read
  rfl

theorem Section.IsFirst.base_lt_stop {base : Nat} {x : Section} (first : x.IsFirst s lines base) :
    base < x.stop := by
  obtain ⟨c, parsed, stop⟩ := first.block
  obtain ⟨_, there, _⟩ := first.start.1.2
  have within := lineAt?_within there
  have moved := (parser_next parsed).2
  rw [Cursor.position_atLine _ within.1 (by omega), stop] at moved
  exact Nat.lt_of_le_of_lt first.start.1.1 moved

theorem Section.IsFirst.base_lt_next {base : Nat} {x : Section} (first : x.IsFirst s lines base) :
    base < x.next := by
  have stop := first.base_lt_stop
  have definition := first.definition
  unfold Section.next
  split
  · next d sig found =>
    rw [found] at definition
    have reach := definition.1.1.1
    omega
  · exact stop

theorem Section.IsFirst.defined_of_record {base : Nat} {x : Section} {r : Record}
    (first : x.IsFirst s lines base) (record : x.record? s = some r) : ∃ d sig,
      x.definition = some (d, sig) ∧ IsLeast (definitionsFrom s lines x.stop) d ∧
        (∃ line ∈ lineAt? lines d, Signature.ofLine? line d = some sig) ∧
          Record.ofParts s sig x.block = r := by
  obtain ⟨⟨d, sig⟩, found, shown⟩ := Option.bind_eq_some_iff.mp record
  have definition := first.definition
  rw [found] at definition
  obtain ⟨_, same⟩ : _ ∧ Record.ofParts s sig x.block = r := by
    simpa only [Option.ite_none_left_eq_some, Option.some.injEq] using shown
  exact ⟨d, sig, found, definition.1, definition.2, same⟩

theorem Section.IsFirst.line_of_record {base : Nat} {x : Section} {r : Record}
    (first : x.IsFirst s lines base) (record : x.record? s = some r) :
    ∃ d : Nat, r.line = d ∧ base < d ∧ d ≤ lines.length ∧ x.next = d + 1 := by
  obtain ⟨d, sig, found, least, ⟨line, there, read⟩, rfl⟩ := first.defined_of_record record
  have stop := first.base_lt_stop
  have reach := least.1.1
  refine ⟨d, Signature.line_of_ofLine? read, by omega, (lineAt?_within there).2, ?_⟩
  simp [Section.next, found]

theorem Decomposes.record_lines {base : Nat} {xs : List Section}
    (sections : Decomposes s lines base xs) :
    (xs.filterMap (Section.record? s)).Pairwise (fun a b => a.line < b.line) ∧
      ∀ r ∈ xs.filterMap (Section.record? s), base < r.line ∧ r.line ≤ lines.length := by
  induction sections with
  | done _ => simp
  | @step base x xs first _ ih =>
    obtain ⟨ordered, bounded⟩ := ih
    have next := first.base_lt_next
    cases record : x.record? s with
    | none =>
      rw [List.filterMap_cons_none record]
      refine ⟨ordered, ?_⟩
      intro r member
      have bounds := bounded r member
      omega
    | some r =>
      obtain ⟨d, line, base_lt, within, x_next⟩ := first.line_of_record record
      rw [List.filterMap_cons_some record]
      refine ⟨List.pairwise_cons.mpr ⟨?_, ordered⟩, ?_⟩
      · intro r' member
        have bounds := bounded r' member
        omega
      · intro r' member
        rcases List.mem_cons.mp member with rfl | member
        · omega
        · have bounds := bounded r' member
          omega

/-- The records of a text are those of its sections, of which there is one list only; they stand in
the order of their lines, and no line defines two of them. -/
theorem ofLines_eq_section_records (s : Settings) (lines : List Text) :
    ∃ xs, Decomposes s lines 1 xs ∧ (∀ ys, Decomposes s lines 1 ys → ys = xs) ∧
      Record.ofLines s lines = xs.filterMap (Section.record? s) ∧
      (Record.ofLines s lines).Pairwise (fun a b => a.line < b.line) ∧
      ∀ r ∈ Record.ofLines s lines, 1 ≤ r.line ∧ r.line ≤ lines.length := by
  obtain ⟨xs, sections, records⟩ := @scan_decomposes s lines 1 (Nat.le_refl 1)
  have same : Record.ofLines s lines = xs.filterMap (Section.record? s) := records
  obtain ⟨ordered, bounded⟩ := sections.record_lines
  rw [same]
  refine ⟨xs, sections, fun ys other => other.unique sections, rfl, ordered, ?_⟩
  intro r member
  have bounds := bounded r member
  omega

end DocHarvest
