import DocHarvest.Proofs.Record.WellFormed

set_option autoImplicit false

namespace DocHarvest

open Comment

def AtCode (lines : List Text) (n : Int) : Prop :=
  ∃ q : Nat, n = q ∧ ∃ line ∈ lineAt? lines q, isComment line = false

def codeLines (lines : List Text) : List Text := lines.filter fun line => !isComment line

namespace Signature

variable {line : Text} {sig : Signature} {n : Int}

theorem isComment_of_ofLine? (read : ofLine? line n = some sig) : isComment line = false := by
  rw [Bool.eq_false_iff]
  intro comment
  simp [ofLine?_of_isComment comment] at read

theorem atCode_of_ofLine? {lines : List Text} {q : Nat} (there : line ∈ lineAt? lines q)
    (read : ofLine? line q = some sig) : AtCode lines sig.line :=
  ⟨q, line_of_ofLine? read, line, there, isComment_of_ofLine? read⟩

end Signature

theorem Cursor.line?_eq_lineAt? (c : Cursor) : c.line? = lineAt? c.lines c.position := by
  simp [Cursor.line?, lineAt?, Cursor.lines, Cursor.position, List.head?_eq_getElem?,
    List.getElem?_append_right]

theorem Section.IsFirst.atCode {s : Settings} {lines : List Text} {base : Nat} {x : Section}
    (first : x.IsFirst s lines base) {r : Record} (record : x.record? s = some r) :
    AtCode lines r.line := by
  obtain ⟨d, sig, _, _, ⟨line, there, read⟩, rfl⟩ := first.defined_of_record record
  exact Signature.atCode_of_ofLine? there read

theorem Record.atCode {s : Settings} {lines : List Text} {r : Record}
    (listed : r ∈ Record.ofLines s lines) : AtCode lines r.line := by
  obtain ⟨xs, sections⟩ := exists_decomposes s lines
  rw [sections.ofLines, List.mem_filterMap] at listed
  obtain ⟨x, member, record⟩ := listed
  obtain ⟨p, first⟩ := sections.exists_isFirst x member
  exact first.atCode record

namespace Signature

theorem findWithin_atCode {limit : Nat} {c next : Cursor} {sig : Signature}
    (found : findWithin limit c = some (sig, next)) :
    AtCode c.lines sig.line ∧ (next.position : Int) = sig.line + 1 := by
  obtain ⟨k, _, before_end, hit, _⟩ := Parser.scanAhead_eq_some found
  rw [definition_eq_bind, Option.bind_eq_some_iff] at hit
  obtain ⟨line, there, hit⟩ := hit
  obtain ⟨_, read, same⟩ := Option.map_eq_some_iff.mp hit
  obtain ⟨rfl, rfl⟩ := Prod.mk.inj same
  have at_line := Cursor.line?_eq_lineAt? (c.advance k)
  rw [there, Cursor.lines_advance] at at_line
  refine ⟨atCode_of_ofLine? at_line.symm read, ?_⟩
  have moved := Cursor.position_advance (c.advance k) 1
  have left : 1 ≤ (c.advance k).after.length := by simp; omega
  rw [Nat.min_eq_left left] at moved
  rw [moved, line_of_ofLine? read]
  rfl

def stop (found : Signature × Cursor) : Option Text × Text × List Text :=
  (found.2.before.head?, found.1.name, found.1.params)

def hit? (line : Text) : Option (Option Text × Text × List Text) :=
  (ofLine? line 0).map fun sig => (some line, sig.name, sig.params)

-- The number of its line is all that the search adds to what a line says on its own.
theorem findWithin_eq_findSome? (limit : Nat) (c : Cursor) :
    (findWithin limit c).map stop = (c.after.take limit).findSome? hit? := by
  induction limit generalizing c with
  | zero => rfl
  | succ limit ih =>
    cases lines : c.after with
    | nil => simp [findWithin, Parser.scanAhead, Cursor.atEnd, lines]
    | cons line rest =>
      have later := ih (c.advance 1)
      rw [Cursor.after_advance, lines] at later
      have here : (definition c).map stop = hit? line := by
        simp [definition_eq_bind, Cursor.line?, lines, hit?, ofLine?, stop, Cursor.advance,
          Function.comp_def]
      rw [findWithin, Parser.scanAhead, Cursor.atEnd, lines]
      rw [List.take_succ_cons, List.findSome?_cons, ← here]
      cases definition c with
      | none => exact later
      | some found => rfl

theorem findSome?_codeLines (lines : List Text) :
    (codeLines lines).findSome? hit? = lines.findSome? hit? := by
  induction lines with
  | nil => rfl
  | cons line lines ih =>
    rw [codeLines] at ih
    cases comment : isComment line with
    | false => simp [codeLines, comment, List.findSome?_cons, ih]
    | true => simp [codeLines, comment, ih, hit?, ofLine?_of_isComment comment]

end Signature

open Signature in
/-- A comment line is no definition: no record is on one and no search stops at one. Windows that
differ in comment lines only are searched alike. -/
theorem comment_line_defines_nothing :
    (∀ line n, isComment line = true → ofLine? line n = none) ∧
    (∀ s lines, ∀ r ∈ Record.ofLines s lines, AtCode lines r.line) ∧
    (∀ limit c sig next, findWithin limit c = some (sig, next) →
      AtCode c.lines sig.line ∧ (next.position : Int) = sig.line + 1) ∧
    ∀ limit limit' c c', codeLines (c.after.take limit) = codeLines (c'.after.take limit') →
      (findWithin limit c).map stop = (findWithin limit' c').map stop := by
  refine ⟨fun line n comment => ofLine?_of_isComment comment n, fun s lines r => Record.atCode,
    fun limit c sig next => findWithin_atCode, ?_⟩
  intro limit limit' c c' same
  rw [findWithin_eq_findSome?, findWithin_eq_findSome?, ← findSome?_codeLines, same,
    findSome?_codeLines]

-- The definition in the comment does not end the search for the one behind it.
theorem comment_line_defines_nothing_sample :
    let note := "\t--function old(a) \nfunction older(b)".toList
    let front := ["--- Doc.", "x = 1"].map String.toList
    let rest := ["M.new = function(c)"].map String.toList
    let behind (lines : List Text) := (Cursor.start lines (Context.outside "lua".toList)).advance 1
    let sig : Signature := ⟨"M.new".toList, ["c".toList], 4⟩
    let r := Record.ofParts Settings.default sig
      { Block.empty Settings.default with description := ["Doc.".toList] }
    Signature.ofLine? note 3 = none ∧
      r ∈ Record.ofLines Settings.default (front ++ note :: rest) ∧
      AtCode (front ++ note :: rest) r.line ∧
      (∃ next, Signature.findWithin 3 (behind (front ++ note :: rest)) = some (sig, next) ∧
        (next.position : Int) = sig.line + 1) ∧
      (Signature.findWithin 3 (behind (front ++ note :: rest))).map Signature.stop =
        (Signature.findWithin 2 (behind (front ++ rest))).map Signature.stop := by
  intro note front rest behind sig r
  obtain ⟨defines_nothing, records, search, alike⟩ := comment_line_defines_nothing
  have listed : r ∈ Record.ofLines Settings.default (front ++ note :: rest) := by
    rw [Record.ofLines, Record.scan_of_block (by decide) rfl]
    exact List.mem_cons_self
  have found : Signature.findWithin 3 (behind (front ++ note :: rest)) =
      some (sig, (behind (front ++ note :: rest)).advance 3) := by decide
  exact ⟨defines_nothing note 3 (by decide), listed, records _ _ r listed,
    ⟨_, found, (search _ _ _ _ found).2⟩, alike _ _ _ _ (by decide)⟩

end DocHarvest
