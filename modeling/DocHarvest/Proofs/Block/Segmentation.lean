import DocHarvest.Proofs.Block.Run

set_option autoImplicit false

namespace DocHarvest

open Comment

namespace Annotation

@[simp] def text? : Annotation → Option Text
  | .prose t => some t
  | _ => none

@[simp] def param? : Annotation → Option Param
  | .param p => some p
  | _ => none

@[simp] def generic? : Annotation → Option Generic
  | .generic g => some g
  | _ => none

@[simp] def returns? : Annotation → Option Returns
  | .returns r => some r
  | _ => none

end Annotation

inductive Stretch where
  | prose (line : Text)
  | closed (opener : Text) (body : List Text) (closer : Text)
  | unclosed (opener : Text) (body : List Text)

namespace Stretch

def lines : Stretch → List Text
  | .prose line => [line]
  | .closed opener body closer => opener :: (body ++ [closer])
  | .unclosed opener body => opener :: body

def isOpen : Stretch → Bool
  | .unclosed _ _ => true
  | _ => false

def IsBody (s : Settings) (body : List Text) : Prop :=
  ∀ line ∈ body, closesFence line = false ∧ (annotation? s true line).isSome = true

-- Each line is accepted in its mode, an opener stands outside every fence, and the first line that
-- closes a fence ends it.
def Valid (s : Settings) : Stretch → Prop
  | .prose line => fenceOpen? s line = none ∧ (annotation? s false line).isSome = true
  | .closed opener body closer =>
    (fenceOpen? s opener).isSome = true ∧ IsBody s body ∧ closesFence closer = true
  | .unclosed opener body => (fenceOpen? s opener).isSome = true ∧ IsBody s body

def said? (s : Settings) : Stretch → Option Annotation
  | .prose line => (annotation? s false line).join
  | _ => none

def example? (s : Settings) : Stretch → Option Example
  | .closed opener body _ =>
    (fenceOpen? s opener).map fun lang => ⟨lang, ['\n'].intercalate (body.filterMap code?)⟩
  | _ => none

@[simp] theorem said?_closed (s : Settings) (opener : Text) (body : List Text) (closer : Text) :
    (closed opener body closer).said? s = none := rfl

@[simp] theorem said?_unclosed (s : Settings) (opener : Text) (body : List Text) :
    (unclosed opener body).said? s = none := rfl

@[simp] theorem example?_prose (s : Settings) (line : Text) :
    (prose line).example? s = none := rfl

@[simp] theorem example?_unclosed (s : Settings) (opener : Text) (body : List Text) :
    (unclosed opener body).example? s = none := rfl

end Stretch

structure Segmentation (s : Settings) (run : List Text) (ps : List Stretch) : Prop where
  lines : ps.flatMap Stretch.lines = run
  valid : ∀ p ∈ ps, p.Valid s
  open_last : ∀ p ∈ ps.dropLast, p.isOpen = false

namespace Block

def ofStretches (s : Settings) (ps : List Stretch) : Block :=
  let said := ps.filterMap (Stretch.said? s)
  { description := said.filterMap Annotation.text?
    params := said.filterMap Annotation.param?
    returns := (said.filterMap Annotation.returns?).getLast?.getD ⟨s.defaultReturnType, []⟩
    generics := said.filterMap Annotation.generic?
    examples := ps.filterMap (Stretch.example? s) }

def append (b : Block) (s : Settings) (ps : List Stretch) : Block :=
  let said := ps.filterMap (Stretch.said? s)
  { description := b.description ++ said.filterMap Annotation.text?
    params := b.params ++ said.filterMap Annotation.param?
    returns := (said.filterMap Annotation.returns?).getLast?.getD b.returns
    generics := b.generics ++ said.filterMap Annotation.generic?
    examples := b.examples ++ ps.filterMap (Stretch.example? s) }

theorem append_empty (s : Settings) (ps : List Stretch) :
    (Block.empty s).append s ps = ofStretches s ps := rfl

theorem append_nil (b : Block) (s : Settings) : b.append s [] = b := by
  simp [append]

theorem append_cons (b : Block) (s : Settings) (p : Stretch) (ps : List Stretch) :
    b.append s (p :: ps) = (b.append s [p]).append s ps := by
  have split : p :: ps = [p] ++ ps := rfl
  rw [split]
  simp only [append, List.filterMap_append, List.append_assoc, List.getLast?_append, mk.injEq,
    true_and, and_true]
  cases (List.filterMap Annotation.returns? (List.filterMap (Stretch.said? s) ps)).getLast? <;> rfl

end Block

namespace Draft

theorem read?_body {s : Settings} {body : List Text} (isBody : Stretch.IsBody s body) (b : Block)
    (lang : Text) (code : List Text) :
    (⟨b, some ⟨lang, code⟩⟩ : Draft).read? s body =
      some ⟨b, some ⟨lang, code ++ body.filterMap code?⟩⟩ := by
  induction body generalizing code with
  | nil => simp
  | cons line body ih =>
    obtain ⟨inside, accepted⟩ := isBody line (by simp)
    have said : annotation? s true line = (code? line).map fun t => some (.prose t) := by
      simp [annotation?, insideFence?, inside]
    rw [said, Option.isSome_map, Option.isSome_iff_exists] at accepted
    obtain ⟨t, ht⟩ := accepted
    have rest := ih (fun l member => isBody l (by simp [member])) (code ++ [t])
    simp [inFence, said, ht, add, addText, rest]

theorem read?_prose {s : Settings} {line : Text} (valid : (Stretch.prose line).Valid s)
    (b : Block) : ∃ a, annotation? s false line = some a ∧
      (⟨b, none⟩ : Draft).add a = ⟨b.append s [.prose line], none⟩ := by
  obtain ⟨notOpener, accepted⟩ := valid
  obtain ⟨a, said⟩ := Option.isSome_iff_exists.mp accepted
  refine ⟨a, said, ?_⟩
  rcases outsideFence?_cases said with ⟨g, _, rfl⟩ | ⟨p, _, rfl⟩ | ⟨r, _, rfl⟩ | ⟨lang, opens, _⟩ |
    ⟨_, rfl⟩ | ⟨t, _, rfl⟩
  · simp [add, addGeneric, Block.append, Stretch.said?, said]
  · simp [add, addParam, Block.append, Stretch.said?, said]
  · simp [add, setReturns, Block.append, Stretch.said?, said]
  · simp [notOpener] at opens
  · simp [add, Block.append, Stretch.said?, said, List.filterMap_cons]
  · simp [add, addText, Block.append, Stretch.said?, said]

theorem read?_stretch {s : Settings} {p : Stretch} (valid : p.Valid s) (b : Block) : ∃ e,
    (⟨b, none⟩ : Draft).read? s p.lines = some e ∧ e.block = b.append s [p] ∧
      e.inFence = p.isOpen := by
  cases p with
  | prose line =>
    obtain ⟨a, said, added⟩ := read?_prose valid b
    refine ⟨⟨b.append s [.prose line], none⟩, ?_, rfl, rfl⟩
    simp [Stretch.lines, inFence, said, added]
  | closed opener body closer =>
    obtain ⟨opens, isBody, closes⟩ := valid
    obtain ⟨lang, opens⟩ := Option.isSome_iff_exists.mp opens
    have said : annotation? s false opener = some (some (.fenceOpen lang)) :=
      outsideFence?_of_fenceOpen? opens
    have last : annotation? s true closer = some (some .fenceClose) := by
      simp [annotation?, insideFence?, closes]
    refine ⟨⟨b.append s [.closed opener body closer], none⟩, ?_, rfl, rfl⟩
    simp [Stretch.lines, inFence, said, add, read?_append, read?_body isBody, last, closeFence,
      Block.append, Stretch.example?, opens, List.filterMap_cons]
  | unclosed opener body =>
    obtain ⟨opens, isBody⟩ := valid
    obtain ⟨lang, opens⟩ := Option.isSome_iff_exists.mp opens
    have said : annotation? s false opener = some (some (.fenceOpen lang)) :=
      outsideFence?_of_fenceOpen? opens
    refine ⟨⟨b, some ⟨lang, body.filterMap code?⟩⟩, ?_, ?_, rfl⟩
    · simp [Stretch.lines, inFence, said, add, read?_body isBody]
    · simp [Block.append, List.filterMap_cons]

theorem read?_stretches {s : Settings} {ps : List Stretch} (valid : ∀ p ∈ ps, p.Valid s)
    (open_last : ∀ p ∈ ps.dropLast, p.isOpen = false) (b : Block) : ∃ e,
    (⟨b, none⟩ : Draft).read? s (ps.flatMap Stretch.lines) = some e ∧ e.block = b.append s ps ∧
      e.inFence = ps.any Stretch.isOpen := by
  induction ps generalizing b with
  | nil => exact ⟨_, rfl, (Block.append_nil b s).symm, rfl⟩
  | cons p ps ih =>
    obtain ⟨e, read, block, mode⟩ := read?_stretch (valid p (by simp)) b
    cases ps with
    | nil => exact ⟨e, by simpa using read, block, by simpa using mode⟩
    | cons q ps =>
      -- Only the last part may leave a fence open, so the next one starts outside.
      have closed : p.isOpen = false := open_last p (by simp)
      have outside : e = ⟨b.append s [p], none⟩ := by
        cases e
        simp_all [inFence]
      obtain ⟨e', read', block', mode'⟩ := ih (fun r member => valid r (by simp [member]))
        (fun r member => open_last r (by simp [member])) (b.append s [p])
      refine ⟨e', ?_, ?_, ?_⟩
      · rw [List.flatMap_cons, read?_append, read, outside]
        exact read'
      · rw [Block.append_cons, block']
      · rw [List.any_cons, closed, Bool.false_or, mode']

end Draft

namespace Segmentation

variable {s : Settings} {run : List Text} {ps : List Stretch}

theorem nil : Segmentation s [] [] := ⟨rfl, by simp, by simp⟩

theorem unclosed {opener : Text} {body : List Text}
    (valid : (Stretch.unclosed opener body).Valid s) :
    Segmentation s (opener :: body) [.unclosed opener body] :=
  ⟨by simp [Stretch.lines], by simpa using valid, by simp⟩

theorem cons {p : Stretch} (valid : p.Valid s) (closed : p.isOpen = false)
    (rest : Segmentation s run ps) : Segmentation s (p.lines ++ run) (p :: ps) where
  lines := by simp [rest.lines]
  valid := by simpa [valid] using rest.valid
  open_last := by
    cases ps with
    | nil => simp
    | cons q ps => simpa [closed] using rest.open_last

end Segmentation

-- Both modes at once: outside, the whole run is segmented; inside, its front is a body and what
-- follows the line that closes the fence is segmented.
theorem Draft.exists_segmentation (s : Settings) (run : List Text) :
    (∀ b e, (⟨b, none⟩ : Draft).read? s run = some e → ∃ ps, Segmentation s run ps) ∧
    (∀ b f e, (⟨b, some f⟩ : Draft).read? s run = some e →
      Stretch.IsBody s run ∨ ∃ body closer rest ps, run = body ++ closer :: rest ∧
        Stretch.IsBody s body ∧ closesFence closer = true ∧ Segmentation s rest ps) := by
  induction run with
  | nil => exact ⟨fun _ _ _ => ⟨[], .nil⟩, fun _ _ _ _ => .inl (by simp [Stretch.IsBody])⟩
  | cons line run ih =>
    obtain ⟨outside, inside⟩ := ih
    constructor
    · intro b e read
      rw [Draft.read?_cons, Option.bind_eq_some_iff] at read
      obtain ⟨a, said, read⟩ := read
      change annotation? s false line = some a at said
      cases opens : fenceOpen? s line with
      | none =>
        have valid : (Stretch.prose line).Valid s := ⟨opens, by simp [said]⟩
        obtain ⟨a', said', added⟩ := Draft.read?_prose valid b
        rw [said, Option.some.injEq] at said'
        rw [said', added] at read
        obtain ⟨ps, rest⟩ := outside _ _ read
        exact ⟨_, rest.cons valid rfl⟩
      | some lang =>
        have opener : annotation? s false line = some (some (.fenceOpen lang)) :=
          outsideFence?_of_fenceOpen? opens
        rw [said, Option.some.injEq] at opener
        rw [opener] at read
        rcases inside _ _ _ read with isBody | ⟨body, closer, rest, ps, rfl, isBody, closes, later⟩
        · exact ⟨_, .unclosed ⟨by simp [opens], isBody⟩⟩
        · have fence : (Stretch.closed line body closer).Valid s :=
            ⟨by simp [opens], isBody, closes⟩
          have joined := later.cons fence rfl
          exact ⟨_, by simpa [Stretch.lines] using joined⟩
    · intro b f e read
      rw [Draft.read?_cons, Option.bind_eq_some_iff] at read
      obtain ⟨a, said, read⟩ := read
      change annotation? s true line = some a at said
      cases closes : closesFence line with
      | true =>
        have closed : annotation? s true line = some (some .fenceClose) := by
          simp [annotation?, insideFence?, closes]
        rw [said, Option.some.injEq] at closed
        rw [closed] at read
        obtain ⟨ps, rest⟩ := outside _ _ read
        exact .inr ⟨[], line, run, ps, rfl, by simp [Stretch.IsBody], closes, rest⟩
      | false =>
        have code : ∃ t, a = some (.prose t) := by
          simp only [annotation?, insideFence?, closes, if_true, Bool.false_eq_true, if_false,
            Option.map_eq_some_iff] at said
          obtain ⟨t, _, rfl⟩ := said
          exact ⟨t, rfl⟩
        obtain ⟨t, rfl⟩ := code
        have first : closesFence line = false ∧ (annotation? s true line).isSome = true :=
          ⟨closes, by simp [said]⟩
        rcases inside _ _ _ read with isBody | ⟨body, closer, rest, ps, rfl, isBody, closes, later⟩
        · exact .inl (by simpa [Stretch.IsBody, first] using isBody)
        · exact .inr ⟨line :: body, closer, rest, ps, rfl,
            by simpa [Stretch.IsBody, first] using isBody, closes, later⟩

structure SegmentedRun (s : Settings) (front rest : List Text) (ps : List Stretch) : Prop where
  segmented : Segmentation s (shownLines front) ps
  last : ∀ line ∈ front.getLast?, isBlankLine line = false
  maximal : Ended s (ps.any Stretch.isOpen) rest

theorem SegmentedRun.run {s : Settings} {front rest : List Text} {ps : List Stretch}
    (segmented : SegmentedRun s front rest ps) :
    ∃ e, Draft.Run s (Draft.empty s) front rest e ∧ e.block = Block.ofStretches s ps := by
  obtain ⟨parts, last, maximal⟩ := segmented
  obtain ⟨e, read, block, mode⟩ := Draft.read?_stretches parts.valid parts.open_last (Block.empty s)
  rw [parts.lines] at read
  refine ⟨e, ⟨read, last, ?_⟩, ?_⟩
  · rw [mode]
    exact maximal
  · rw [block, Block.append_empty]

theorem SegmentedRun.parser {s : Settings} {c : Cursor} {front rest : List Text}
    {ps : List Stretch} (segmented : SegmentedRun s front rest ps)
    (outside : c.context.inFence = false) (split : c.after = front ++ rest) (some_line : front ≠ [])
    (first : ∀ line ∈ front.head?, isBlankLine line = false) : ∃ next,
      Block.parser s c = some (Block.ofStretches s ps, next) ∧ next.after = rest ∧
        next.position = c.position + front.length ∧ next.lines = c.lines ∧
          next.context = Context.outside s.defaultCodeLang := by
  obtain ⟨e, run, block⟩ := segmented.run
  have parsed := Block.parser_of_run outside split some_line first run
  rw [block] at parsed
  refine ⟨_, parsed, ?_, ?_, Cursor.lines_advance c front.length, rfl⟩
  · simp [Cursor.withContext, split]
  · have moved := Cursor.position_advance c front.length
    rw [split, List.length_append, Nat.min_eq_left (Nat.le_add_right _ _)] at moved
    exact moved

theorem Draft.Run.segmentedRun {s : Settings} {front rest : List Text} {e : Draft}
    (run : Draft.Run s (Draft.empty s) front rest e) : ∃ ps, SegmentedRun s front rest ps := by
  obtain ⟨ps, parts⟩ := (Draft.exists_segmentation s (shownLines front)).1 _ _ run.read
  obtain ⟨e', read, _, mode⟩ := Draft.read?_stretches parts.valid parts.open_last (Block.empty s)
  have same : e = e' := by
    rw [parts.lines] at read
    exact Option.some.inj (run.read.symm.trans read)
  refine ⟨ps, parts, run.last, ?_⟩
  rw [← mode, ← same]
  exact run.ended

/-- A block is what the parts of the longest run at the cursor say, the run ends the block, and what
follows is read outside every fence again. -/
theorem parser_reads_segmented_run (s : Settings) (c : Cursor)
    (outside : c.context.inFence = false)
    (accepted : ∃ line ∈ c.line?, (annotation? s false line).isSome = true) :
    (∃ front rest ps, c.after = front ++ rest ∧ SegmentedRun s front rest ps) ∧
    ∀ front rest ps, c.after = front ++ rest → SegmentedRun s front rest ps → ∃ next,
      Block.parser s c = some (Block.ofStretches s ps, next) ∧
        next.position = c.position + front.length ∧ next.lines = c.lines ∧
          next.context = Context.outside s.defaultCodeLang := by
  obtain ⟨line, first, accepted⟩ := accepted
  have shown := isBlankLine_of_annotation? accepted
  constructor
  · obtain ⟨front, rest, e, split, run⟩ := Draft.exists_run s (Draft.empty s) c.after
    obtain ⟨ps, segmented⟩ := run.segmentedRun
    exact ⟨front, rest, ps, split, segmented⟩
  · intro front rest ps split segmented
    have head : (front ++ rest).head? = some line := by
      rw [← split]
      exact first
    have some_line : front ≠ [] := by
      rintro rfl
      -- An empty run has no open fence at its end, and would have to end before a line that is
      -- accepted outside every fence.
      have no_part : ps = [] := by
        cases ps with
        | nil => rfl
        | cons p ps => cases p <;> simpa [Stretch.lines, shownLines] using segmented.segmented.lines
      have ended := segmented.maximal
      obtain ⟨more, rfl⟩ := List.head?_eq_some_iff.mp head
      rw [no_part, ended_cons_of_shown shown] at ended
      change annotation? s false line = none at ended
      rw [ended] at accepted
      cases accepted
    have first_shown : ∀ l ∈ front.head?, isBlankLine l = false := by
      intro l here
      rw [List.head?_append, Option.mem_def.mp here] at head
      cases head
      exact shown
    obtain ⟨next, parsed, _, position, same, context⟩ :=
      segmented.parser outside split some_line first_shown
    exact ⟨next, parsed, position, same, context⟩

theorem parser_reads_segmented_run_sample :
    let s := Settings.default
    let lines :=
      ["---Prints.", "", "---```js", "---@param x a", "", "--- ```", " "].map String.toList
    let c := Cursor.start lines (Context.outside s.defaultCodeLang)
    c.context.inFence = false ∧ (∃ line ∈ c.line?, (annotation? s false line).isSome = true) ∧
      ∃ next, Block.parser s c = some (⟨["Prints.".toList], [], ⟨"any".toList, []⟩, [],
        [⟨"js".toList, "@param x a".toList⟩]⟩, next) ∧ next.position = 7 := by
  intro s lines c
  have accepted : ∃ line ∈ c.line?, (annotation? s false line).isSome = true :=
    ⟨"---Prints.".toList, rfl, by decide⟩
  have parts : SegmentedRun s (lines.take 6) (lines.drop 6)
      [.prose "---Prints.".toList,
        .closed "---```js".toList ["---@param x a".toList] "--- ```".toList] := by
    refine ⟨⟨by decide, ?_, by simp [Stretch.isOpen]⟩, by decide, ?_⟩
    · have prose : (Stretch.prose "---Prints.".toList).Valid s := ⟨by decide, by decide⟩
      have body : Stretch.IsBody s ["---@param x a".toList] := by
        simpa [Stretch.IsBody] using ⟨by decide, by decide⟩
      intro p member
      rcases List.mem_cons.mp member with rfl | member
      · exact prose
      · rw [List.mem_singleton.mp member]
        exact ⟨by decide, body, by decide⟩
    · have nothing_left : ((lines.drop 6).dropWhile isBlankLine).head? = none := by decide
      simp [Ended, nothing_left]
  obtain ⟨next, parsed, position, _⟩ :=
    (parser_reads_segmented_run s c rfl accepted).2 _ _ _ (List.take_append_drop 6 lines).symm parts
  exact ⟨rfl, accepted, next, parsed, position⟩

end DocHarvest
