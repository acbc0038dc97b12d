import DocHarvest.Proofs.Record.Sections
import DocHarvest.Proofs.Signature.Shape
import Mathlib.Data.List.Forall2

set_option autoImplicit false

namespace DocHarvest

open Comment

def Example.eraseCode (e : Example) : Example := { e with code := [] }

def Block.eraseCode (b : Block) : Block := { b with examples := b.examples.map Example.eraseCode }

def Fence.eraseCode (f : Fence) : Fence := { f with code := [] }

def Draft.eraseCode (d : Draft) : Draft := ⟨d.block.eraseCode, d.fence.map Fence.eraseCode⟩

def Section.eraseCode (x : Section) : Section := { x with block := x.block.eraseCode }

def Record.eraseCode (r : Record) : Record :=
  { r with examples := r.examples.map Example.eraseCode }

namespace Draft

theorem inFence_eraseCode (d : Draft) : d.eraseCode.inFence = d.inFence := by
  simp [inFence, eraseCode]

theorem inFence_of_eraseCode_eq {d d' : Draft} (same : d.eraseCode = d'.eraseCode) :
    d.inFence = d'.inFence := by
  rw [← inFence_eraseCode d, same, inFence_eraseCode]

theorem eraseCode_add (d : Draft) (a : Option Annotation) :
    (d.eraseCode.add a).eraseCode = (d.add a).eraseCode := by
  obtain ⟨block, fence⟩ := d
  have again : Example.eraseCode ∘ Example.eraseCode = Example.eraseCode := rfl
  match a with
  | none => cases fence <;> simp [add, eraseCode, Block.eraseCode, Fence.eraseCode, again]
  | some (.generic g) =>
    cases fence <;> simp [add, addGeneric, eraseCode, Block.eraseCode, Fence.eraseCode, again]
  | some (.param p) =>
    cases fence <;> simp [add, addParam, eraseCode, Block.eraseCode, Fence.eraseCode, again]
  | some (.returns r) =>
    cases fence <;> simp [add, setReturns, eraseCode, Block.eraseCode, Fence.eraseCode, again]
  | some (.fenceOpen lang) =>
    simp [add, eraseCode, Block.eraseCode, again]
  | some .fenceClose =>
    cases fence <;> simp [add, closeFence, eraseCode, Block.eraseCode, Fence.eraseCode,
      Example.eraseCode, again]
  | some (.prose t) =>
    cases fence <;> simp [add, addText, eraseCode, Block.eraseCode, Fence.eraseCode, again]

theorem eraseCode_add_of_eq {d d' : Draft} (same : d.eraseCode = d'.eraseCode)
    (a : Option Annotation) : (d.add a).eraseCode = (d'.add a).eraseCode := by
  rw [← eraseCode_add, same, eraseCode_add]

-- In a fence it does not matter which text is added.
theorem eraseCode_add_prose {d : Draft} (inside : d.inFence = true) (t u : Text) :
    (d.add (some (.prose t))).eraseCode = (d.add (some (.prose u))).eraseCode := by
  obtain ⟨block, fence⟩ := d
  cases fence with
  | none => cases inside
  | some f => rfl

end Draft

namespace Comment

structure ShowsCode (line : Text) : Prop where
  accepted : (code? line).isSome = true
  stays : closesFence line = false

def Varies (old new : Text) : Prop := old = new ∨ ShowsCode old ∧ ShowsCode new

variable {line old new : Text}

theorem Varies.symm (varies : Varies old new) : Varies new old := varies.imp Eq.symm And.symm

theorem ShowsCode.exists_body (shows : ShowsCode line) :
    ∃ t, body? line = some t ∧ Text.oneLine t = true := by
  have accepted := shows.accepted
  cases body : body? line with
  | none => simp [code?, body] at accepted
  | some t => exact ⟨t, rfl, by simpa [code?, body] using accepted⟩

theorem ShowsCode.isComment (shows : ShowsCode line) : isComment line = true := by
  obtain ⟨t, body, _⟩ := shows.exists_body
  rw [← isSome_body?, body]
  rfl

theorem ShowsCode.annotation?_inside (shows : ShowsCode line) (s : Settings) :
    ∃ t, annotation? s true line = some (some (.prose t)) := by
  obtain ⟨t, code⟩ := Option.isSome_iff_exists.mp shows.accepted
  exact ⟨t, by simp [annotation?, insideFence?, shows.stays, code]⟩

-- Outside a fence such a line says something else, or nothing, but it is accepted there too.
theorem ShowsCode.isSome_annotation? (shows : ShowsCode line) (s : Settings) (inFence : Bool) :
    (annotation? s inFence line).isSome = true := by
  cases inFence with
  | true =>
    obtain ⟨t, said⟩ := shows.annotation?_inside s
    rw [said]
    rfl
  | false =>
    obtain ⟨t, body, single⟩ := shows.exists_body
    have trimmed := Text.oneLine_of_subset (fun c => Text.mem_of_mem_trim) single
    simp [annotation?, isSome_outsideFence?, body, trimmed]

theorem Varies.isSome_annotation? (varies : Varies old new) (s : Settings) (inFence : Bool) :
    (annotation? s inFence old).isSome = (annotation? s inFence new).isSome := by
  rcases varies with rfl | ⟨shows, shows'⟩
  · rfl
  · rw [shows.isSome_annotation?, shows'.isSome_annotation?]

theorem Varies.isBlankLine (varies : Varies old new) : isBlankLine old = isBlankLine new := by
  rcases varies with rfl | ⟨shows, shows'⟩
  · rfl
  · rw [isBlankLine_of_annotation? (shows.isSome_annotation? Settings.default true),
      isBlankLine_of_annotation? (shows'.isSome_annotation? Settings.default true)]

theorem Varies.ofLine? (varies : Varies old new) (n : Int) :
    Signature.ofLine? old n = Signature.ofLine? new n := by
  rcases varies with rfl | ⟨shows, shows'⟩
  · rfl
  · rw [Signature.ofLine?_of_isComment shows.isComment,
      Signature.ofLine?_of_isComment shows'.isComment]

end Comment

variable {s : Settings}

theorem Ended.of_varies {inFence : Bool} {rest rest' : List Text}
    (varies : List.Forall₂ Varies rest rest') (ended : Ended s inFence rest) :
    Ended s inFence rest' := by
  induction varies with
  | nil => exact ended
  | @cons line line' _ _ here _ ih =>
    cases blank : isBlankLine line with
    | true =>
      rw [ended_cons_of_blank blank] at ended
      rw [here.isBlankLine] at blank
      exact (ended_cons_of_blank blank).mpr (ih ended)
    | false =>
      rw [ended_cons_of_shown blank] at ended
      rw [here.isBlankLine] at blank
      have refused := here.isSome_annotation? s inFence
      rw [ended] at refused
      exact (ended_cons_of_shown blank).mpr (by simpa using refused.symm)

-- One line of the run: the drafts stay alike, since where the lines differ a fence is open.
theorem Draft.add_varies {d d' : Draft} {line line' : Text} {a : Option Annotation}
    (same : d.eraseCode = d'.eraseCode) (varies : Varies line line')
    (inside : line ≠ line' → d.inFence = true) (said : annotation? s d.inFence line = some a) :
    ∃ a', annotation? s d'.inFence line' = some a' ∧
      (d.add a).eraseCode = (d'.add a').eraseCode := by
  rw [← inFence_of_eraseCode_eq same]
  by_cases equal : line = line'
  · subst equal
    exact ⟨a, said, eraseCode_add_of_eq same a⟩
  · obtain ⟨shows, shows'⟩ := varies.resolve_left equal
    have open_fence := inside equal
    obtain ⟨t, code⟩ := shows.annotation?_inside s
    obtain ⟨t', code'⟩ := shows'.annotation?_inside s
    rw [open_fence, code, Option.some.injEq] at said
    subst said
    refine ⟨_, by rw [open_fence, code'], ?_⟩
    rw [eraseCode_add_prose open_fence t t', eraseCode_add_of_eq same]

theorem Draft.read?_varies {d d' e : Draft} {front front' : List Text}
    (same : d.eraseCode = d'.eraseCode) (varies : List.Forall₂ Varies front front')
    (inside : ∀ i, front[i]? ≠ front'[i]? →
      ∃ m, d.read? s (shownLines (front.take i)) = some m ∧ m.inFence = true)
    (read : d.read? s (shownLines front) = some e) :
    ∃ e', d'.read? s (shownLines front') = some e' ∧ e.eraseCode = e'.eraseCode := by
  induction varies generalizing d d' with
  | nil =>
    obtain rfl : d = e := by simpa [shownLines] using read
    exact ⟨d', rfl, same⟩
  | @cons line line' front front' here _ ih =>
    cases blank : isBlankLine line with
    | true =>
      have blank' := here.isBlankLine ▸ blank
      rw [shownLines_cons_of_blank blank] at read
      rw [shownLines_cons_of_blank blank']
      apply ih same _ read
      intro i differ
      simpa [shownLines_cons_of_blank blank] using inside (i + 1) (by simpa using differ)
    | false =>
      have shown := here.isBlankLine ▸ blank
      rw [shownLines_cons_of_shown blank, read?_cons, Option.bind_eq_some_iff] at read
      obtain ⟨a, said, read⟩ := read
      have first : line ≠ line' → d.inFence = true := by
        intro differ
        obtain ⟨m, reached, open_fence⟩ := inside 0 (by simpa using differ)
        obtain rfl : d = m := by simpa [shownLines] using reached
        exact open_fence
      obtain ⟨a', said', next⟩ := add_varies same here first said
      rw [shownLines_cons_of_shown shown, read?_cons, said', Option.bind_some]
      apply ih next _ read
      intro i differ
      simpa [shownLines_cons_of_shown blank, said] using inside (i + 1) (by simpa using differ)

theorem Block.Spans.of_varies {front rest front' rest' : List Text} {b : Block}
    (spans : Block.Spans s front rest b) (varies : List.Forall₂ Varies front front')
    (later : List.Forall₂ Varies rest rest')
    (inside : ∀ i, front[i]? ≠ front'[i]? → ∃ m,
      (Draft.empty s).read? s (shownLines (front.take i)) = some m ∧ m.inFence = true) :
    ∃ b', Block.Spans s front' rest' b' ∧ b'.eraseCode = b.eraseCode := by
  obtain ⟨e, ⟨read, last, ended⟩, rfl⟩ := spans.run
  obtain ⟨e', read', same⟩ := Draft.read?_varies rfl varies inside read
  rw [Draft.inFence_of_eraseCode_eq same] at ended
  have length := varies.length_eq
  have shown (i : Nat) (line' : Text) (here' : front'[i]? = some line')
      (kept : ∀ line ∈ front[i]?, isBlankLine line = false) : isBlankLine line' = false := by
    obtain ⟨within', rfl⟩ := List.getElem?_eq_some_iff.mp here'
    have here := varies.get (i := i) (by omega) within'
    exact here.isBlankLine ▸ kept _ (List.getElem?_eq_getElem _)
  refine ⟨e'.block, ⟨?_, ?_, e', ⟨read', ?_, ended.of_varies later⟩, rfl⟩, ?_⟩
  · rintro rfl
    exact spans.some_line (by simpa using length)
  · intro line' first'
    rw [List.head?_eq_getElem?] at first'
    refine shown 0 line' first' ?_
    rw [← List.head?_eq_getElem?]
    exact spans.first
  · intro line' last'
    rw [List.getLast?_eq_getElem?] at last'
    refine shown _ line' last' ?_
    rw [← length, ← List.getLast?_eq_getElem?]
    exact last
  · exact congrArg Draft.block same.symm

def Section.InFence (s : Settings) (lines : List Text) (x : Section) (q : Nat) : Prop :=
  x.start ≤ q ∧ q < x.stop ∧ ∃ d, (Draft.empty s).read? s
    (shownLines ((lines.drop (x.start - 1)).take (q - x.start))) = some d ∧ d.inFence = true

def InFence (s : Settings) (lines : List Text) (q : Nat) : Prop :=
  ∃ xs, Decomposes s lines 1 xs ∧ ∃ x ∈ xs, x.InFence s lines q

section Texts

variable {lines lines' : List Text}

theorem lineAt?_varies (varies : List.Forall₂ Varies lines lines') {q : Nat} {line : Text}
    (there : line ∈ lineAt? lines q) : ∃ line' ∈ lineAt? lines' q, Varies line line' := by
  cases q with
  | zero => cases there
  | succ q =>
    obtain ⟨within, rfl⟩ := List.getElem?_eq_some_iff.mp there
    have within' : q < lines'.length := varies.length_eq ▸ within
    exact ⟨_, List.getElem?_eq_getElem within', varies.get within within'⟩

theorem lineAt?_add {p : Nat} (counted : 1 ≤ p) (i : Nat) :
    lineAt? lines (p + i) = (lines.drop (p - 1))[i]? := by
  rw [List.getElem?_drop, show p + i = p - 1 + i + 1 by omega]
  rfl

theorem StartsBlock.of_varies (varies : List.Forall₂ Varies lines lines') {q : Nat}
    (starts : StartsBlock s lines q) : StartsBlock s lines' q := by
  obtain ⟨line, there, accepted⟩ := starts
  obtain ⟨line', there', here⟩ := lineAt?_varies varies there
  exact ⟨line', there', here.isSome_annotation? s false ▸ accepted⟩

theorem Defines.of_varies (varies : List.Forall₂ Varies lines lines') {q : Nat}
    (defines : Defines lines q) : Defines lines' q := by
  obtain ⟨line, there, defined⟩ := defines
  obtain ⟨line', there', here⟩ := lineAt?_varies varies there
  exact ⟨line', there', here.ofLine? q ▸ defined⟩

theorem varies_flip (varies : List.Forall₂ Varies lines lines') :
    List.Forall₂ Varies lines' lines :=
  varies.flip.imp fun _ _ => Varies.symm

theorem FirstDefinition.of_varies (varies : List.Forall₂ Varies lines lines') {p : Nat}
    {found : Option (Nat × Signature)} (first : FirstDefinition s lines p found) :
    FirstDefinition s lines' p found := by
  have window : definitionsFrom s lines' p = definitionsFrom s lines p := by
    ext q
    simp only [definitionsFrom, Set.mem_ofPred_eq, varies.length_eq]
    have defines : Defines lines' q ↔ Defines lines q :=
      ⟨.of_varies (varies_flip varies), .of_varies varies⟩
    rw [defines]
  match found with
  | none => exact window.trans first
  | some (d, sig) =>
    obtain ⟨least, line, there, read⟩ := first
    obtain ⟨line', there', here⟩ := lineAt?_varies varies there
    exact ⟨window ▸ least, line', there', here.ofLine? d ▸ read⟩

theorem Section.IsFirst.of_varies (varies : List.Forall₂ Varies lines lines') {base : Nat}
    {x : Section} (first : x.IsFirst s lines base)
    (inside : ∀ q, x.start ≤ q → q < x.stop → lineAt? lines q ≠ lineAt? lines' q →
      x.InFence s lines q) :
    ∃ x' : Section, x'.IsFirst s lines' base ∧ x'.eraseCode = x.eraseCode := by
  have within := first.start_within
  obtain ⟨front, rest, split, spans, stop⟩ := first.spans
  have dropped := List.forall₂_drop (x.start - 1) (varies_flip varies)
  rw [split] at dropped
  have front_varies := varies_flip (List.forall₂_take_append _ _ _ dropped)
  have rest_varies := varies_flip (List.forall₂_drop_append _ _ _ dropped)
  obtain ⟨b', spans', same⟩ := spans.of_varies front_varies rest_varies fun i differ => by
    have before_stop : i < front.length := by
      by_contra beyond
      simp [show ¬ i < front.length by omega] at differ
    have found := inside (x.start + i) (by omega) (by omega) (by
      rw [lineAt?_add within.1, lineAt?_add within.1, split,
        List.getElem?_append_left before_stop]
      rwa [List.getElem?_take_of_lt before_stop] at differ)
    obtain ⟨_, _, m, read, open_fence⟩ := found
    rw [Nat.add_sub_cancel_left, split, List.take_append_of_le_length before_stop.le] at read
    exact ⟨m, read, open_fence⟩
  have length := front_varies.length_eq
  obtain ⟨c, read, position⟩ := spans'.outsideAt within.1 (varies.length_eq ▸ within.2)
    (List.take_append_drop front.length _).symm
  have starts (q : Nat) : StartsBlock s lines' q ↔ StartsBlock s lines q :=
    ⟨.of_varies (varies_flip varies), .of_varies varies⟩
  refine ⟨{ x with block := b' }, ⟨?_, ⟨c, read, ?_⟩, first.definition.of_varies varies⟩, ?_⟩
  · simpa only [starts] using first.start
  · change c.position = x.stop
    omega
  · simp [Section.eraseCode, same]

theorem Decomposes.base_le_start {base : Nat} {xs : List Section}
    (sections : Decomposes s lines base xs) : ∀ x ∈ xs, base ≤ x.start := by
  induction sections with
  | done _ => simp
  | step first _ ih =>
    have from_base := first.start.1.1
    have next := first.base_lt_next
    intro y member
    rcases List.mem_cons.mp member with rfl | member
    · exact from_base
    · have later := ih y member
      omega

theorem Decomposes.of_varies (varies : List.Forall₂ Varies lines lines') {base : Nat}
    {xs : List Section} (sections : Decomposes s lines base xs)
    (inside : ∀ q, base ≤ q → lineAt? lines q ≠ lineAt? lines' q → ∃ x ∈ xs, x.InFence s lines q) :
    ∃ xs', Decomposes s lines' base xs' ∧ xs'.map Section.eraseCode = xs.map Section.eraseCode := by
  induction sections with
  | done none_left =>
    refine ⟨[], .done ?_, rfl⟩
    intro q from_base starts
    exact none_left q from_base (starts.of_varies (varies_flip varies))
  | @step base x xs first rest ih =>
    have order := rest.base_le_start
    have next := first.next_within
    have from_base := first.start.1.1
    obtain ⟨x', first', same⟩ := first.of_varies varies fun q from_start before_stop differ => by
      obtain ⟨y, member, found⟩ := inside q (by omega) differ
      rcases List.mem_cons.mp member with rfl | member
      · exact found
      · have later := order y member
        have here := found.1
        omega
    have next_eq : x'.eraseCode.next = x.eraseCode.next := congrArg Section.next same
    obtain ⟨xs', rest', same'⟩ := ih fun q from_next differ => by
      obtain ⟨y, member, found⟩ := inside q (by have := first.base_lt_next; omega) differ
      rcases List.mem_cons.mp member with rfl | member
      · have before_stop := found.2.1
        omega
      · exact ⟨y, member, found⟩
    change x'.next = x.next at next_eq
    rw [← next_eq] at rest'
    exact ⟨x' :: xs', .step first' rest', by simp [same, same']⟩

end Texts

theorem Section.record?_eraseCode (s : Settings) (x : Section) :
    x.eraseCode.record? s = (x.record? s).map Record.eraseCode := by
  obtain ⟨start, stop, block, definition⟩ := x
  cases definition with
  | none => rfl
  | some found =>
    obtain ⟨d, sig⟩ := found
    by_cases hidden : isPrivate s.privatePrefix sig.name = true
    · simp [Section.record?, Section.eraseCode, hidden]
    · simp [Section.record?, Section.eraseCode, hidden]
      rfl

/-- Changed code in fences leaves every record as it was but for the code of its examples. -/
theorem ofLines_eraseCode_eq (s : Settings) (lines lines' : List Text)
    (aligned : lines.length = lines'.length)
    (varied : ∀ q, ∀ old ∈ lineAt? lines q, ∀ new ∈ lineAt? lines' q, old ≠ new →
      InFence s lines q ∧ ShowsCode old ∧ ShowsCode new) :
    (Record.ofLines s lines).map Record.eraseCode =
      (Record.ofLines s lines').map Record.eraseCode := by
  have varies : List.Forall₂ Varies lines lines' := by
    rw [List.forall₂_iff_get]
    refine ⟨aligned, ?_⟩
    intro i within within'
    by_cases equal : lines.get ⟨i, within⟩ = lines'.get ⟨i, within'⟩
    · exact .inl equal
    · exact .inr (varied (i + 1) _ (List.getElem?_eq_getElem within) _
        (List.getElem?_eq_getElem within') equal).2
  obtain ⟨xs, sections⟩ := exists_decomposes s lines
  obtain ⟨xs', sections', same⟩ := sections.of_varies varies fun q counted differ => by
    match old : lineAt? lines q, new : lineAt? lines' q with
    | none, none => exact absurd (old.trans new.symm) differ
    | none, some line' =>
      obtain ⟨line, there, _⟩ := lineAt?_varies (varies_flip varies) new
      simp [old] at there
    | some line, none =>
      obtain ⟨line', there, _⟩ := lineAt?_varies varies old
      simp [new] at there
    | some line, some line' =>
      have changed : line ≠ line' := by
        rintro rfl
        exact differ (old.trans new.symm)
      obtain ⟨ys, others, found⟩ := (varied q line old line' new changed).1
      rwa [others.unique sections] at found
  have records (xs : List Section) : (xs.filterMap (Section.record? s)).map Record.eraseCode =
      (xs.map Section.eraseCode).filterMap (Section.record? s) := by
    rw [List.map_filterMap, List.filterMap_map]
    simp only [Function.comp_def, Section.record?_eraseCode]
  rw [sections.ofLines, sections'.ofLines, records, records, same]

theorem ofLines_eraseCode_eq_sample :
    let s := Settings.default
    let text (shown : String) : List Text :=
      ["--- Doc.", "---```js", shown, "---```", "function f(x)"].map String.toList
    let lines := text "--- a()"
    let lines' := text "---@param x function g()"
    InFence s lines 3 ∧ lineAt? lines 3 ≠ lineAt? lines' 3 ∧
      (Record.ofLines s lines).map Record.eraseCode =
        (Record.ofLines s lines').map Record.eraseCode := by
  intro s text lines lines'
  have inside : InFence s lines 3 := by
    obtain ⟨xs, sections⟩ := exists_decomposes s lines
    refine ⟨xs, sections, ?_⟩
    have opens : StartsBlock s lines 1 := ⟨_, rfl, by decide⟩
    cases sections with
    | done none_left => exact absurd opens (none_left 1 (Nat.le_refl 1))
    | @step _ x _ first _ =>
      have start : x.start = 1 :=
        Nat.le_antisymm (first.start.2 ⟨Nat.le_refl 1, opens⟩) first.start.1.1
      obtain ⟨c, read, stop⟩ := first.block
      have place : (Block.parser s (outsideAt s lines 1)).map (·.2.position) = some 5 := by decide
      rw [start] at read
      rw [read, Option.map_some, Option.some.injEq, stop] at place
      refine ⟨x, by simp, by omega, by omega, ?_⟩
      rw [start]
      exact ⟨_, rfl, rfl⟩
  have varied : ∀ q, ∀ old ∈ lineAt? lines q, ∀ new ∈ lineAt? lines' q, old ≠ new →
      InFence s lines q ∧ ShowsCode old ∧ ShowsCode new := by
    intro q old there new there' differ
    have within := lineAt?_within there
    have third : q = 3 := by
      by_contra other
      have same : lineAt? lines q = lineAt? lines' q := by
        have small : ∀ q ≤ 5, q ≠ 3 → lineAt? lines q = lineAt? lines' q := by decide
        exact small q within.2 other
      exact differ (Option.some.inj (there.symm.trans (same.trans there')))
    subst third
    obtain rfl : "--- a()".toList = old := Option.some.inj there
    obtain rfl : "---@param x function g()".toList = new := Option.some.inj there'
    exact ⟨inside, ⟨by decide, by decide⟩, ⟨by decide, by decide⟩⟩
  exact ⟨inside, by decide, ofLines_eraseCode_eq s lines lines' rfl varied⟩

end DocHarvest
