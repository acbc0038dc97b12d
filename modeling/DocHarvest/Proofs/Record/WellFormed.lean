import DocHarvest.Proofs.Comment.Shape
import DocHarvest.Proofs.Record.Sections
import DocHarvest.Proofs.Signature.Shape

set_option autoImplicit false

namespace DocHarvest

open Comment

structure IsShownCode (line : Text) : Prop where
  trimEnd : Text.trimEnd line = line
  oneLine : Text.oneLine line = true

structure Example.WellFormed (e : Example) : Prop where
  lang : IsRun Text.isWord e.lang
  code : ∀ line ∈ e.code.splitOn '\n', IsShownCode line

structure Block.WellFormed (s : Settings) (b : Block) : Prop where
  description : ∀ t ∈ b.description, t ≠ [] ∧ Trimmed t
  params : ∀ p ∈ b.params, IsFilled p.type ∧ Trimmed p.description
  returns : IsFilled b.returns.type ∧ Trimmed b.returns.description
  generics : ∀ g ∈ b.generics, IsRun Text.isWord g.name ∧ g.type = s.defaultParamType
  examples : ∀ e ∈ b.examples, e.WellFormed

structure Fence.WellFormed (f : Fence) : Prop where
  lang : IsRun Text.isWord f.lang
  code : ∀ line ∈ f.code, IsShownCode line

structure Draft.WellFormed (s : Settings) (d : Draft) : Prop where
  block : d.block.WellFormed s
  fence : ∀ f ∈ d.fence, f.WellFormed

variable {s : Settings}

theorem trimmed_nil : Trimmed [] := ⟨rfl, rfl⟩

theorem Block.empty_wellFormed (usable : s.Usable) : (Block.empty s).WellFormed s where
  description := by simp [Block.empty]
  params := by simp [Block.empty]
  returns := ⟨usable.returnType, trimmed_nil⟩
  generics := by simp [Block.empty]
  examples := by simp [Block.empty]

theorem Fence.WellFormed.shown {f : Fence} (wellFormed : f.WellFormed) :
    (⟨f.lang, ['\n'].intercalate f.code⟩ : Example).WellFormed := by
  refine ⟨wellFormed.lang, ?_⟩
  by_cases nothing : f.code = []
  · intro line member
    obtain rfl : line = [] := by simpa [nothing, List.splitOn] using member
    exact ⟨rfl, rfl⟩
  · -- No line of code holds a line feed, so the lines are found again.
    have single : ∀ line ∈ f.code, '\n' ∉ line := by
      intro line member cut
      have plain := Text.oneLine_iff.mp (wellFormed.code line member).oneLine '\n' cut
      exact absurd plain (by decide)
    simpa [List.splitOn_intercalate '\n' single nothing] using wellFormed.code

namespace Draft

theorem empty_wellFormed (usable : s.Usable) : (Draft.empty s).WellFormed s :=
  ⟨Block.empty_wellFormed usable, by simp [Draft.empty]⟩

theorem WellFormed.closeFence {d : Draft} (wellFormed : d.WellFormed s) :
    d.closeFence.WellFormed s := by
  obtain ⟨block, fence⟩ := d
  cases fence with
  | none => exact wellFormed
  | some f =>
    have shown := (wellFormed.fence f rfl).shown
    have examples := List.forall_mem_append.mpr
      ⟨wellFormed.block.examples, List.forall_mem_singleton.mpr shown⟩
    exact ⟨{ wellFormed.block with examples }, by simp [Draft.closeFence]⟩

theorem WellFormed.addText {d : Draft} (wellFormed : d.WellFormed s) {t : Text}
    (said : Annotation.WellFormed s d.inFence (.prose t)) : (d.addText t).WellFormed s := by
  obtain ⟨block, fence⟩ := d
  cases fence with
  | none =>
    have description := List.forall_mem_append.mpr
      ⟨wellFormed.block.description, List.forall_mem_singleton.mpr said⟩
    exact ⟨{ wellFormed.block with description }, wellFormed.fence⟩
  | some f =>
    have before := wellFormed.fence f rfl
    have code := List.forall_mem_append.mpr
      ⟨before.code, List.forall_mem_singleton.mpr ⟨said.1, said.2⟩⟩
    refine ⟨wellFormed.block, ?_⟩
    intro g same
    obtain rfl : _ = g := Option.some.inj same
    exact ⟨before.lang, code⟩

theorem WellFormed.add {d : Draft} (wellFormed : d.WellFormed s) {a : Option Annotation}
    (said : ∀ x ∈ a, x.WellFormed s d.inFence) : (d.add a).WellFormed s := by
  match a with
  | none => exact wellFormed
  | some (.generic g) =>
    have generics := List.forall_mem_append.mpr
      ⟨wellFormed.block.generics, List.forall_mem_singleton.mpr (said (.generic g) rfl)⟩
    exact ⟨{ wellFormed.block with generics }, wellFormed.fence⟩
  | some (.param p) =>
    have params := List.forall_mem_append.mpr
      ⟨wellFormed.block.params, List.forall_mem_singleton.mpr (said (.param p) rfl)⟩
    exact ⟨{ wellFormed.block with params }, wellFormed.fence⟩
  | some (.returns r) =>
    exact ⟨{ wellFormed.block with returns := said _ rfl }, wellFormed.fence⟩
  | some (.fenceOpen lang) =>
    refine ⟨wellFormed.block, ?_⟩
    intro f same
    obtain rfl : _ = f := Option.some.inj same
    exact ⟨said _ rfl, by simp⟩
  | some .fenceClose => exact wellFormed.closeFence
  | some (.prose t) => exact wellFormed.addText (said _ rfl)

theorem WellFormed.read (usable : s.Usable) {d e : Draft} {lines : List Text}
    (wellFormed : d.WellFormed s) (read : d.read? s lines = some e) : e.WellFormed s := by
  induction lines generalizing d with
  | nil =>
    obtain rfl : d = e := by simpa using read
    exact wellFormed
  | cons line lines ih =>
    rw [read?_cons, Option.bind_eq_some_iff] at read
    obtain ⟨a, said, read⟩ := read
    apply ih _ read
    apply wellFormed.add
    rintro x rfl
    exact annotation?_wellFormed usable said

end Draft

theorem Block.Spans.wellFormed (usable : s.Usable) {front rest : List Text} {b : Block}
    (spans : Block.Spans s front rest b) : b.WellFormed s := by
  obtain ⟨e, run, rfl⟩ := spans.run
  exact ((Draft.empty_wellFormed usable).read usable run.read).block

theorem Trimmed.join {t u : Text} (left : Trimmed t) (right : Trimmed u) (some_left : t ≠ [])
    (some_right : u ≠ []) : Trimmed (t ++ ' ' :: u) := by
  obtain ⟨c, t, rfl⟩ := List.exists_cons_of_ne_nil some_left
  constructor
  · apply Text.trim_of_ends
    · simpa using Text.head_shown_of_trim left.trim
    · have last := Text.last_trimEnd_shown u
      rw [Text.trimEnd_of_trim right.trim] at last
      obtain ⟨d, u, rfl⟩ := List.exists_cons_of_ne_nil some_right
      simpa [List.getLast?_cons] using last
  · have before := left.oneLine
    have after := right.oneLine
    simp only [Text.oneLine, List.all_append, List.all_cons, Bool.and_eq_true] at before after ⊢
    exact ⟨before, by decide, after⟩

theorem trimmed_intercalate {ts : List Text} (pieces : ∀ t ∈ ts, t ≠ [] ∧ Trimmed t) :
    Trimmed ([' '].intercalate ts) ∧ (ts ≠ [] → [' '].intercalate ts ≠ []) := by
  induction ts with
  | nil => exact ⟨trimmed_nil, by simp⟩
  | cons t ts ih =>
    have first := pieces t (by simp)
    cases ts with
    | nil => simpa [List.intercalate] using And.intro first.2 first.1
    | cons u us =>
      obtain ⟨trimmed, some_left⟩ := ih fun x member => pieces x (by simp [member])
      have joined := first.2.join trimmed first.1 (some_left (by simp))
      have spaced : [' '].intercalate (t :: u :: us) = t ++ ' ' :: [' '].intercalate (u :: us) := by
        simp [List.intercalate_cons_cons]
      rw [spaced]
      exact ⟨joined, by simp⟩

structure Record.WellFormed (s : Settings) (r : Record) : Prop where
  name : Signature.IsQualified r.name
  params : ∀ p ∈ r.params,
    Signature.IsArgument p.name ∧ IsFilled p.type ∧ Trimmed p.description
  returns : IsFilled r.returns.type ∧ Trimmed r.returns.description
  generics : ∀ g ∈ r.generics, IsRun Text.isWord g.name ∧ g.type = s.defaultParamType
  description : Trimmed r.description
  examples : ∀ e ∈ r.examples, e.WellFormed

theorem Block.WellFormed.paramsFor (usable : s.Usable) {b : Block} (wellFormed : b.WellFormed s)
    {names : List Text} (named : ∀ name ∈ names, Signature.IsArgument name) :
    ∀ p ∈ b.paramsFor s names,
      Signature.IsArgument p.name ∧ IsFilled p.type ∧ Trimmed p.description := by
  intro p member
  obtain ⟨name, listed, rfl⟩ := List.mem_map.mp member
  cases found : b.param? name with
  | none => exact ⟨named name listed, usable.paramType, trimmed_nil⟩
  | some q =>
    have same : q.name = name := by simpa using List.find?_some found
    have documented := wellFormed.params q (List.mem_of_find?_eq_some found)
    exact ⟨same ▸ named name listed, documented⟩

theorem Record.ofParts_wellFormed (usable : s.Usable) {sig : Signature} {b : Block}
    (signed : sig.WellFormed) (told : b.WellFormed s) : (Record.ofParts s sig b).WellFormed s where
  name := signed.name
  params := told.paramsFor usable signed.params
  returns := told.returns
  generics := told.generics
  description := (trimmed_intercalate told.description).1
  examples := told.examples

theorem Decomposes.exists_isFirst {lines : List Text} {base : Nat} {xs : List Section}
    (sections : Decomposes s lines base xs) : ∀ x ∈ xs, ∃ p, x.IsFirst s lines p := by
  induction sections with
  | done _ => simp
  | step first _ ih =>
    intro y member
    rcases List.mem_cons.mp member with rfl | member
    · exact ⟨_, first⟩
    · exact ih y member

theorem Section.IsFirst.wellFormed_of_record (usable : s.Usable) {lines : List Text} {base : Nat}
    {x : Section} (first : x.IsFirst s lines base) {r : Record} (record : x.record? s = some r) :
    r.WellFormed s := by
  obtain ⟨front, rest, _, spans, _⟩ := first.spans
  obtain ⟨_, sig, _, _, ⟨_, _, read⟩, rfl⟩ := first.defined_of_record record
  exact Record.ofParts_wellFormed usable (Signature.wellFormed_of_ofLine? read)
    (spans.wellFormed usable)

/-- Every record of every text is well formed, under all settings that are accepted. -/
theorem ofLines_wellFormed {options : Fields} {s : Settings}
    (accepted : Settings.resolve options = .ok s) (lines : List Text) :
    ∀ r ∈ Record.ofLines s lines, r.WellFormed s := by
  have usable := Settings.usable_of_resolve accepted
  obtain ⟨xs, sections⟩ := exists_decomposes s lines
  rw [sections.ofLines]
  intro r member
  obtain ⟨x, listed, record⟩ := List.mem_filterMap.mp member
  obtain ⟨p, first⟩ := sections.exists_isFirst x listed
  exact first.wellFormed_of_record usable record

theorem ofLines_wellFormed_sample :
    let options : Fields := [("defaultParamType".toList, .text " T | nil ".toList)]
    let s := { Settings.default with defaultParamType := "T | nil".toList }
    let lines := ["---@param x # Left", "-- Joins.  ", "", "--  Ends.", "M.f = function( x,y )"].map
      String.toList
    let r : Record :=
      { name := "M.f".toList
        params := [⟨"x".toList, "T | nil".toList, "Left".toList, false⟩,
          ⟨"y".toList, "T | nil".toList, [], false⟩]
        returns := ⟨"any".toList, []⟩
        generics := []
        description := "Joins. Ends.".toList
        examples := []
        line := 5 }
    Settings.resolve options = .ok s ∧ r ∈ Record.ofLines s lines ∧ r.WellFormed s := by
  intro options s lines r
  have accepted : Settings.resolve options = .ok s := rfl
  have found : r ∈ Record.ofLines s lines := by
    rw [Record.ofLines, Record.scan_of_block (by decide) rfl]
    exact List.mem_cons_self
  exact ⟨accepted, found, ofLines_wellFormed accepted lines r found⟩

end DocHarvest
