import DocHarvest.Proofs.Record.Sections

set_option autoImplicit false

namespace DocHarvest

open Comment

def Signature.shift (n : Nat) (sig : Signature) : Signature := { sig with line := sig.line + n }

def Record.shift (n : Nat) (r : Record) : Record := { r with line := r.line + n }

def Section.shift (n : Nat) (x : Section) : Section where
  start := n + x.start
  stop := n + x.stop
  block := x.block
  definition := x.definition.map fun (d, sig) => (n + d, sig.shift n)

theorem Section.next_shift (n : Nat) (x : Section) : (x.shift n).next = n + x.next := by
  obtain ⟨start, stop, block, definition⟩ := x
  cases definition <;> simp [Section.next, Section.shift, Nat.add_assoc]

theorem Section.record?_shift (s : Settings) (n : Nat) (x : Section) :
    (x.shift n).record? s = (x.record? s).map (Record.shift n) := by
  obtain ⟨start, stop, block, definition⟩ := x
  cases definition with
  | none => rfl
  | some found =>
    obtain ⟨d, sig⟩ := found
    by_cases hidden : isPrivate s.privatePrefix sig.name = true <;>
      simp [Section.record?, Section.shift, Signature.shift, hidden, Record.ofParts, Record.shift]

theorem Signature.ofLine?_shift (line : Text) (m n : Nat) :
    Signature.ofLine? line ((n + m : Nat) : Int) =
      (Signature.ofLine? line m).map (Signature.shift n) := by
  have moved : ((n + m : Nat) : Int) = m + n := by omega
  rw [Signature.ofLine?, Signature.ofLine?, Option.map_map, moved]
  rfl

variable {s : Settings}

theorem lineAt?_append_left {front : List Text} (rest : List Text) {q : Nat}
    (within : q ≤ front.length) : lineAt? (front ++ rest) q = lineAt? front q := by
  cases q with
  | zero => rfl
  | succ q => simp [lineAt?, List.getElem?_append_left (show q < front.length by omega)]

theorem lineAt?_append_right (front rest : List Text) {q : Nat} (counted : 1 ≤ q) :
    lineAt? (front ++ rest) (front.length + q) = lineAt? rest q := by
  obtain ⟨q, rfl⟩ : ∃ k, q = k + 1 := ⟨q - 1, by omega⟩
  rw [← Nat.add_assoc, lineAt?, List.getElem?_append_right (by omega), Nat.add_sub_cancel_left,
    lineAt?]

section Shift

variable {front lines : List Text}

theorem startsBlock_shift {q : Nat} (counted : 1 ≤ q) :
    StartsBlock s (front ++ lines) (front.length + q) ↔ StartsBlock s lines q := by
  rw [StartsBlock, StartsBlock, lineAt?_append_right front lines counted]

theorem defines_shift {q : Nat} (counted : 1 ≤ q) :
    Defines (front ++ lines) (front.length + q) ↔ Defines lines q := by
  rw [Defines, Defines, lineAt?_append_right front lines counted]
  simp only [Signature.ofLine?_shift, Option.isSome_map]

theorem definitionsFrom_shift {p q : Nat} (counted : 1 ≤ p) :
    front.length + q ∈ definitionsFrom s (front ++ lines) (front.length + p) ↔
      q ∈ definitionsFrom s lines p := by
  simp only [definitionsFrom, Set.mem_ofPred_eq, List.length_append]
  constructor
  · rintro ⟨from_p, reach, defines⟩
    exact ⟨by omega, by omega, (defines_shift (by omega)).mp defines⟩
  · rintro ⟨from_p, reach, defines⟩
    exact ⟨by omega, by omega, (defines_shift (by omega)).mpr defines⟩

-- A set of places behind `n` lines is told by what stands at `n + q`.
theorem isLeast_shift {n d : Nat} {near far : Set Nat} (behind : ∀ q ∈ far, n ≤ q)
    (same : ∀ q, n + q ∈ far ↔ q ∈ near) (least : IsLeast near d) : IsLeast far (n + d) := by
  refine ⟨(same d).mpr least.1, ?_⟩
  intro q member
  have after := behind q member
  have moved : n + (q - n) = q := by omega
  have bound : d ≤ q - n := least.2 ((same (q - n)).mp (moved.symm ▸ member))
  omega

theorem FirstDefinition.shift {p : Nat} (counted : 1 ≤ p) {found : Option (Nat × Signature)}
    (first : FirstDefinition s lines p found) :
    FirstDefinition s (front ++ lines) (front.length + p)
      (found.map fun (d, sig) => (front.length + d, sig.shift front.length)) := by
  have behind : ∀ q ∈ definitionsFrom s (front ++ lines) (front.length + p), front.length ≤ q :=
    fun q member => Nat.le_trans (Nat.le_add_right _ _) member.1
  cases found with
  | none =>
    change definitionsFrom s lines p = ∅ at first
    change definitionsFrom s (front ++ lines) (front.length + p) = ∅
    rw [Set.eq_empty_iff_forall_notMem] at first ⊢
    intro q member
    have after := behind q member
    rw [← Nat.add_sub_of_le after, definitionsFrom_shift counted] at member
    exact first _ member
  | some found =>
    obtain ⟨d, sig⟩ := found
    obtain ⟨least, line, there, read⟩ := first
    have within := (lineAt?_within there).1
    refine ⟨isLeast_shift behind (fun q => definitionsFrom_shift counted) least, line, ?_, ?_⟩
    · rwa [lineAt?_append_right front lines within]
    · rw [Signature.ofLine?_shift, read]
      rfl

theorem Section.IsFirst.shift {base : Nat} {x : Section} (counted : 1 ≤ base)
    (first : x.IsFirst s lines base) :
    (x.shift front.length).IsFirst s (front ++ lines) (front.length + base) := by
  have within := first.start_within
  have stop := first.stop_within
  refine ⟨isLeast_shift ?_ ?_ first.start, ?_, first.definition.shift (by omega)⟩
  · rintro q ⟨from_base, _⟩
    omega
  · intro q
    constructor
    · rintro ⟨from_base, starts⟩
      exact ⟨by omega, (startsBlock_shift (by omega)).mp starts⟩
    · rintro ⟨from_base, starts⟩
      exact ⟨by omega, (startsBlock_shift (by omega)).mpr starts⟩
  · obtain ⟨block, rest, split, spans, stop⟩ := first.spans
    have moved : (front ++ lines).drop (front.length + x.start - 1) = block ++ rest := by
      rw [Nat.add_sub_assoc within.1, List.drop_append, List.drop_eq_nil_of_le (by omega),
        List.nil_append, Nat.add_sub_cancel_left, split]
    obtain ⟨c, read, position⟩ := spans.outsideAt (p := front.length + x.start) (by omega)
      (by simp only [List.length_append]; omega) moved
    refine ⟨c, read, ?_⟩
    change c.position = front.length + x.stop
    omega

theorem Decomposes.shift {base : Nat} {xs : List Section} (counted : 1 ≤ base)
    (sections : Decomposes s lines base xs) :
    Decomposes s (front ++ lines) (front.length + base) (xs.map (Section.shift front.length)) := by
  induction sections with
  | done none_left =>
    apply Decomposes.done
    intro q from_base starts
    obtain ⟨k, rfl⟩ := Nat.exists_eq_add_of_le (show front.length ≤ q by omega)
    exact none_left k (by omega) ((startsBlock_shift (by omega)).mp starts)
  | step first _ ih =>
    have next := first.base_lt_next
    have later := ih (by omega)
    rw [← Section.next_shift] at later
    exact .step (first.shift counted) later

end Shift

structure IsPlain (line : Text) : Prop where
  shown : isBlankLine line = false
  no_comment : isComment line = false
  no_definition : ∀ n, Signature.ofLine? line n = none

-- Whether a line defines something does not depend on its number.
theorem isPlain_iff (line : Text) : IsPlain line ↔ isBlankLine line = false ∧
    isComment line = false ∧ Signature.ofLine? line 1 = none := by
  constructor
  · rintro ⟨shown, no_comment, no_definition⟩
    exact ⟨shown, no_comment, no_definition 1⟩
  · rintro ⟨shown, no_comment, no_definition⟩
    refine ⟨shown, no_comment, ?_⟩
    intro n
    rw [Signature.ofLine?, Option.map_eq_none_iff] at no_definition ⊢
    exact no_definition

instance (line : Text) : Decidable (IsPlain line) := decidable_of_iff' _ (isPlain_iff line)

theorem IsPlain.not_accepted {line : Text} (plain : IsPlain line) (s : Settings) (inFence : Bool) :
    annotation? s inFence line = none := by
  apply annotation?_of_body?
  have bare : (split? line).isSome = false := plain.no_comment
  rw [Option.isSome_eq_false_iff, Option.isNone_iff_eq_none] at bare
  rw [body?, bare]
  rfl

theorem Ended.append {inFence : Bool} {rest more : List Text} (ended : Ended s inFence rest)
    (plain : ∀ line ∈ more.head?, IsPlain line) : Ended s inFence (rest ++ more) := by
  induction rest with
  | nil =>
    cases more with
    | nil => exact ended
    | cons line more =>
      have first := plain line (by simp)
      exact (ended_cons_of_shown first.shown).mpr (first.not_accepted s inFence)
  | cons line rest ih =>
    cases blank : isBlankLine line with
    | true =>
      rw [ended_cons_of_blank blank] at ended
      exact (ended_cons_of_blank blank).mpr (ih ended)
    | false =>
      rw [ended_cons_of_shown blank] at ended
      exact (ended_cons_of_shown blank).mpr ended

theorem Block.Spans.append {front rest more : List Text} {b : Block}
    (spans : Block.Spans s front rest b) (plain : ∀ line ∈ more.head?, IsPlain line) :
    Block.Spans s front (rest ++ more) b := by
  obtain ⟨e, run, block⟩ := spans.run
  exact ⟨spans.some_line, spans.first, e, ⟨run.read, run.last, run.ended.append plain⟩, block⟩

section Front

variable {front wall rest : List Text}

theorem startsBlock_front {q : Nat} (within : q ≤ front.length) (more : List Text) :
    StartsBlock s (front ++ more) q ↔ StartsBlock s front q := by
  rw [StartsBlock, StartsBlock, lineAt?_append_left more within]

theorem defines_front {q : Nat} (within : q ≤ front.length) (more : List Text) :
    Defines (front ++ more) q ↔ Defines front q := by
  rw [Defines, Defines, lineAt?_append_left more within]

theorem isPlain_of_wall (plain : ∀ line ∈ wall, IsPlain line) {q : Nat} {line : Text}
    (behind : front.length < q) (within : q ≤ front.length + wall.length)
    (there : line ∈ lineAt? (front ++ wall ++ rest) q) : IsPlain line := by
  rw [lineAt?_append_left rest (by simpa using within)] at there
  obtain ⟨k, rfl⟩ := Nat.exists_eq_add_of_le behind.le
  rw [lineAt?_append_right front wall (by omega)] at there
  obtain ⟨j, rfl⟩ : ∃ j, k = j + 1 := ⟨k - 1, by omega⟩
  exact plain line (List.mem_of_getElem? there)

theorem definitionsFrom_front (plain : ∀ line ∈ wall, IsPlain line)
    (long : s.lookahead ≤ wall.length) {p : Nat} (counted : 1 ≤ p)
    (within : p ≤ front.length + 1) :
    definitionsFrom s (front ++ wall ++ rest) p = definitionsFrom s front p := by
  ext q
  simp only [definitionsFrom, Set.mem_ofPred_eq, List.length_append]
  constructor
  · rintro ⟨from_p, reach, defines⟩
    -- The window ends inside the wall, where nothing is defined.
    by_cases inside : q ≤ front.length
    · rw [List.append_assoc, defines_front inside] at defines
      exact ⟨from_p, by omega, defines⟩
    · obtain ⟨line, there, defined⟩ := defines
      have bare := isPlain_of_wall plain (by omega) (by omega) there
      simp [bare.no_definition] at defined
  · rintro ⟨from_p, reach, defines⟩
    rw [← defines_front (by omega) (wall ++ rest), ← List.append_assoc] at defines
    exact ⟨from_p, by omega, defines⟩

theorem Section.IsFirst.before_wall {base : Nat} {x : Section} (plain : ∀ line ∈ wall, IsPlain line)
    (some_line : wall ≠ []) (long : s.lookahead ≤ wall.length) (first : x.IsFirst s front base) :
    x.IsFirst s (front ++ wall ++ rest) base := by
  have within := first.start_within
  have stop := first.stop_within
  refine ⟨⟨⟨first.start.1.1, ?_⟩, ?_⟩, ?_, ?_⟩
  · rw [List.append_assoc, startsBlock_front within.2]
    exact first.start.1.2
  · rintro q ⟨from_base, starts⟩
    by_cases inside : q ≤ front.length
    · rw [List.append_assoc, startsBlock_front inside] at starts
      exact first.start.2 ⟨from_base, starts⟩
    · omega
  · obtain ⟨block, more, split, spans, stop⟩ := first.spans
    have head : ∀ line ∈ (wall ++ rest).head?, IsPlain line := by
      intro line member
      obtain ⟨w, ws, rfl⟩ := List.exists_cons_of_ne_nil some_line
      obtain rfl : w = line := by simpa using member
      exact plain w (by simp)
    have longer : (front ++ wall ++ rest).drop (x.start - 1) =
        block ++ (more ++ (wall ++ rest)) := by
      rw [List.append_assoc, List.drop_append_of_le_length (by omega), split, List.append_assoc]
    obtain ⟨c, read, position⟩ := (spans.append head).outsideAt within.1
      (by simp only [List.length_append]; omega) longer
    exact ⟨c, read, position.trans stop.symm⟩
  · have definition := first.definition
    have window : definitionsFrom s (front ++ wall ++ rest) x.stop =
        definitionsFrom s front x.stop := definitionsFrom_front plain long (by omega) stop.2
    cases found : x.definition with
    | none =>
      rw [found] at definition
      exact window.trans definition
    | some found' =>
      obtain ⟨d, sig⟩ := found'
      rw [found] at definition
      obtain ⟨least, line, there, read⟩ := definition
      refine ⟨window ▸ least, line, ?_, read⟩
      rwa [List.append_assoc, lineAt?_append_left _ (lineAt?_within there).2]

theorem Decomposes.before_wall {base : Nat} {xs ys : List Section}
    (plain : ∀ line ∈ wall, IsPlain line) (some_line : wall ≠ [])
    (long : s.lookahead ≤ wall.length) (within : base ≤ front.length + 1)
    (sections : Decomposes s front base xs)
    (later : Decomposes s (front ++ wall ++ rest) (front.length + wall.length + 1) ys) :
    Decomposes s (front ++ wall ++ rest) base (xs ++ ys) := by
  induction sections with
  | @done base none_left =>
    obtain ⟨n, reach⟩ := Nat.exists_eq_add_of_le
      (show base ≤ front.length + wall.length + 1 by omega)
    rw [reach] at later
    refine later.of_later ?_
    intro q from_base below starts
    by_cases inside : q ≤ front.length
    · rw [List.append_assoc, startsBlock_front inside] at starts
      exact none_left q from_base starts
    · obtain ⟨line, there, accepted⟩ := starts
      have bare := isPlain_of_wall plain (by omega) (by omega) there
      simp [bare.not_accepted] at accepted
  | step first _ ih =>
    exact .step (first.before_wall plain some_line long) (ih first.next_within.2)

end Front

/-- Two texts with plain lines between them, enough to fill a window, have the records of both. -/
theorem ofLines_append_separated (s : Settings) (front wall rest : List Text)
    (long : max 1 s.lookahead ≤ wall.length) (plain : ∀ line ∈ wall, IsPlain line) :
    Record.ofLines s (front ++ wall ++ rest) = Record.ofLines s front ++
      (Record.ofLines s rest).map (Record.shift (front.length + wall.length)) := by
  have some_line : wall ≠ [] := List.ne_nil_of_length_pos (by omega)
  obtain ⟨xs, first⟩ := exists_decomposes s front
  obtain ⟨ys, second⟩ := exists_decomposes s rest
  have moved : Decomposes s (front ++ wall ++ rest) ((front ++ wall).length + 1) _ :=
    second.shift (Nat.le_refl 1)
  rw [List.length_append] at moved
  have joined := first.before_wall plain some_line (by omega) (by omega) moved
  rw [joined.ofLines, first.ofLines, second.ofLines, List.filterMap_append, List.filterMap_map,
    List.map_filterMap]
  simp only [Function.comp_def, Section.record?_shift]

theorem ofLines_append_separated_sample :
    let s := { Settings.default with lookahead := 2 }
    let front := ["---@param x T", "", "function f(x)", "--- Open.", "--- ```lua", "--- x", ""].map
      String.toList
    let wall := ["x = 1 -- y", "return function(x)"].map String.toList
    let rest := ["--- ```", "g = function(y)"].map String.toList
    max 1 s.lookahead ≤ wall.length ∧ (∀ line ∈ wall, IsPlain line) ∧
      Record.ofLines s (front ++ wall ++ rest) =
        Record.ofLines s front ++ (Record.ofLines s rest).map (Record.shift 9) := by
  intro s front wall rest
  have long : max 1 s.lookahead ≤ wall.length := by decide
  have plain : ∀ line ∈ wall, IsPlain line := by decide
  exact ⟨long, plain, ofLines_append_separated s front wall rest long plain⟩

end DocHarvest
