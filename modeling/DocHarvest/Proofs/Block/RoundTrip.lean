import DocHarvest.Proofs.Block.Rendering
import DocHarvest.Proofs.Block.Segmentation

set_option autoImplicit false

namespace DocHarvest

open Comment

namespace Stretch

theorem Valid.shown {s : Settings} {p : Stretch} (valid : p.Valid s) :
    ∀ line ∈ p.lines, isBlankLine line = false := by
  have opener : ∀ line, (fenceOpen? s line).isSome = true → isBlankLine line = false := by
    intro line opens
    obtain ⟨lang, opens⟩ := Option.isSome_iff_exists.mp opens
    have accepted : (annotation? s false line).isSome = true := by
      simp [annotation?, outsideFence?_of_fenceOpen? opens]
    exact isBlankLine_of_annotation? accepted
  have body : ∀ lines, IsBody s lines → ∀ line ∈ lines, isBlankLine line = false := by
    intro lines isBody line member
    exact isBlankLine_of_annotation? (isBody line member).2
  intro line member
  cases p with
  | prose text =>
    rw [List.mem_singleton.mp member]
    exact isBlankLine_of_annotation? valid.2
  | closed first code last =>
    obtain ⟨opens, isBody, closes⟩ := valid
    simp only [lines, List.mem_cons, List.mem_append, List.not_mem_nil, or_false] at member
    rcases member with rfl | member | rfl
    · exact opener line opens
    · exact body code isBody line member
    · have accepted : (annotation? s true line).isSome = true := by
        simp [annotation?, insideFence?, closes]
      exact isBlankLine_of_annotation? accepted
  | unclosed first code =>
    obtain ⟨opens, isBody⟩ := valid
    rcases List.mem_cons.mp member with rfl | member
    · exact opener line opens
    · exact body code isBody line member

theorem valid_prose {s : Settings} {line : Text} {a : Annotation}
    (said : outsideFence? s line = some (some a)) (inside : ∀ lang, a ≠ .fenceOpen lang) :
    (prose line).Valid s := by
  constructor
  · cases opens : fenceOpen? s line with
    | none => rfl
    | some lang =>
      rw [outsideFence?_of_fenceOpen? opens] at said
      simp only [Option.some.injEq] at said
      exact absurd said.symm (inside lang)
  · simp [annotation?, said]

end Stretch

theorem filterMap_written {α β γ : Type} {xs : List α} {write : α → β} {read : β → Option γ}
    {say : α → γ} (reads : ∀ x ∈ xs, read (write x) = some (say x)) :
    (xs.map write).filterMap read = xs.map say := by
  have same := List.filterMap_congr reads
  rw [List.filterMap_map, Function.comp_def, same, List.filterMap_eq_map']

namespace Block

def exampleStretch (e : Example) : Stretch :=
  .closed (renderOpener e) ((e.code.splitOn '\n').map renderCode) renderCloser

def stretches (b : Block) : List Stretch :=
  (b.description.map fun t => .prose (renderProse t)) ++
    (b.generics.map fun g => .prose (renderGeneric g)) ++
    (b.params.map fun p => .prose (renderParam p)) ++
    .prose (renderReturns b.returns) :: b.examples.map exampleStretch

theorem lines_stretches (b : Block) : b.stretches.flatMap Stretch.lines = b.render := by
  have prose : ∀ {α : Type} (write : α → Text) (xs : List α),
      (xs.map fun x => Stretch.prose (write x)).flatMap Stretch.lines = xs.map write := by
    intro α write xs
    rw [List.flatMap_map]
    exact List.flatMap_pure_eq_map write xs
  have fences : (b.examples.map exampleStretch).flatMap Stretch.lines =
      b.examples.flatMap renderExample := by
    rw [List.flatMap_map]
    rfl
  simp only [stretches, render, List.flatMap_append, List.flatMap_cons, prose, fences,
    Stretch.lines, List.singleton_append]

theorem closed_stretches (b : Block) : ∀ p ∈ b.stretches, p.isOpen = false := by
  intro p member
  simp only [stretches, List.mem_append, List.mem_map, List.mem_cons] at member
  rcases member with ((⟨t, _, rfl⟩ | ⟨g, _, rfl⟩) | ⟨q, _, rfl⟩) | rfl | ⟨e, _, rfl⟩ <;> rfl

theorem valid_stretches {s : Settings} {b : Block} (renderable : b.Renderable s) :
    ∀ p ∈ b.stretches, p.Valid s := by
  intro p member
  simp only [stretches, List.mem_append, List.mem_map, List.mem_cons] at member
  rcases member with ((⟨t, member, rfl⟩ | ⟨g, member, rfl⟩) | ⟨q, member, rfl⟩) | rfl |
    ⟨e, member, rfl⟩
  · exact Stretch.valid_prose (prose?_render s (renderable.description t member)) (by simp)
  · obtain ⟨isName, typed⟩ := renderable.generics g member
    exact Stretch.valid_prose (generic?_render s isName typed) (by simp)
  · obtain ⟨isName, isType, told, flag⟩ := renderable.params q member
    exact Stretch.valid_prose (param?_render s isName isType told flag) (by simp)
  · obtain ⟨isType, told⟩ := renderable.returns
    exact Stretch.valid_prose (returns?_render s isType told) (by simp)
  · obtain ⟨isName, code⟩ := renderable.examples e member
    refine ⟨by simp [fenceOpen?_render s isName], ?_, closesFence_renderCloser⟩
    intro line written
    obtain ⟨line, member, rfl⟩ := List.mem_map.mp written
    have inside := closesFence_renderCode (code line member)
    exact ⟨inside, by simp [annotation?, insideFence?, inside, code?_render (code line member)]⟩

theorem example?_exampleStretch {s : Settings} {e : Example} (isName : IsRun Text.isWord e.lang)
    (code : ∀ line ∈ e.code.splitOn '\n', IsCodeLine line) :
    (exampleStretch e).example? s = some e := by
  have lines : ((e.code.splitOn '\n').map renderCode).filterMap code? = e.code.splitOn '\n' := by
    rw [filterMap_written fun line member => code?_render (code line member), List.map_id']
  simp [exampleStretch, Stretch.example?, fenceOpen?_render s isName, lines,
    List.intercalate_splitOn]

def annotations (b : Block) : List Annotation :=
  b.description.map .prose ++ b.generics.map .generic ++ b.params.map .param ++
    [.returns b.returns]

theorem said_stretches {s : Settings} {b : Block} (renderable : b.Renderable s) :
    b.stretches.filterMap (Stretch.said? s) = b.annotations := by
  have said : ∀ {line : Text} {a : Annotation}, outsideFence? s line = some (some a) →
      (Stretch.prose line).said? s = some a := by
    intro line a read
    simp [Stretch.said?, annotation?, read]
  have description := filterMap_written fun t member =>
    said (prose?_render s (renderable.description t member))
  have generics := filterMap_written fun g member =>
    said (generic?_render s (renderable.generics g member).1 (renderable.generics g member).2)
  have params := filterMap_written fun p member => by
    obtain ⟨isName, isType, told, flag⟩ := renderable.params p member
    exact said (param?_render s isName isType told flag)
  have returns := said (returns?_render s renderable.returns.1 renderable.returns.2)
  have examples : (b.examples.map exampleStretch).filterMap (Stretch.said? s) = [] := by
    simp [exampleStretch]
  rw [stretches, List.filterMap_append, List.filterMap_append, List.filterMap_append, description,
    generics, params, List.filterMap_cons_some returns, examples]
  rfl

theorem ofStretches_stretches {s : Settings} {b : Block} (renderable : b.Renderable s) :
    ofStretches s b.stretches = b := by
  have examples : b.stretches.filterMap (Stretch.example? s) = b.examples := by
    have fences := filterMap_written fun e member =>
      example?_exampleStretch (s := s) (renderable.examples e member).1
        (renderable.examples e member).2
    have prose : ∀ {α : Type} (write : α → Text) (xs : List α),
        (xs.map fun x => Stretch.prose (write x)).filterMap (Stretch.example? s) = [] := by
      simp
    rw [List.map_id'] at fences
    rw [stretches, List.filterMap_append, List.filterMap_append, List.filterMap_append, prose,
      prose, prose, List.filterMap_cons_none rfl, fences]
    rfl
  simp only [ofStretches, said_stretches renderable, examples]
  simp [annotations, Function.comp_def, List.filterMap_cons]

end Block

/-- A block that is written as comment lines is read back as it was, and what follows is left alone
if it does not carry the run on. -/
theorem parser_render_round_trip (s : Settings) {b : Block} (renderable : b.Renderable s)
    (c : Cursor) (rest : List Text) (outside : c.context.inFence = false)
    (lines : c.after = b.render ++ rest) (ended : Ended s false rest) : ∃ next,
      Block.parser s c = some (b, next) ∧ next.after = rest ∧
        next.position = c.position + b.render.length ∧ next.lines = c.lines ∧
          next.context = Context.outside s.defaultCodeLang := by
  have valid := Block.valid_stretches renderable
  have closed := b.closed_stretches
  have shown : ∀ line ∈ b.render, isBlankLine line = false := by
    intro line member
    rw [← Block.lines_stretches] at member
    obtain ⟨p, part, member⟩ := List.mem_flatMap.mp member
    exact (valid p part).shown line member
  -- Nothing that is written is blank, so the run holds every line of it.
  have kept : shownLines b.render = b.render := List.filter_eq_self.mpr (by simpa using shown)
  have segmented : SegmentedRun s b.render rest b.stretches := by
    refine ⟨⟨?_, valid, ?_⟩, ?_, ?_⟩
    · rw [Block.lines_stretches, kept]
    · intro p member
      exact closed p (List.dropLast_subset _ member)
    · intro line last
      exact shown line (List.mem_of_getLast? last)
    · rw [List.any_eq_false.mpr (by simpa using closed)]
      exact ended
  have some_line : b.render ≠ [] := by simp [Block.render]
  have parsed := segmented.parser outside lines some_line
    (fun line first => shown line (List.mem_of_mem_head? first))
  rwa [Block.ofStretches_stretches renderable] at parsed

theorem parser_render_round_trip_sample :
    let s := Settings.default
    let b : Block :=
      { description := ["Maps `f`, see @param.".toList, "Notes: none".toList]
        params := [
          ⟨"opts.f".toList, "fun(x: T, ...): table<T, U[]>?".toList, "# of calls".toList, true⟩,
          ⟨"xs".toList, "{ n: T }|T[]".toList, [], false⟩]
        returns := ⟨"(fun())[]".toList, "Or: nil?".toList⟩
        generics := [⟨"T".toList, s.defaultParamType⟩]
        examples := [⟨"lua".toList, "if x then\n  ---@return y\n\nend ```".toList⟩] }
    let rest := ["", "function M.map(opts, xs)", "--- Other."].map String.toList
    let c := Cursor.start (b.render ++ rest) (Context.outside s.defaultCodeLang)
    b.Renderable s ∧ Ended s false rest ∧ ∃ next,
      Block.parser s c = some (b, next) ∧ next.after = rest ∧ next.position = 13 := by
  intro s b rest c
  have renderable : b.Renderable s := by decide
  have ended : Ended s false rest := by
    unfold Ended
    decide
  obtain ⟨next, parsed, after, position, _⟩ :=
    parser_render_round_trip s renderable c rest rfl rfl ended
  exact ⟨renderable, ended, next, parsed, after, position⟩

end DocHarvest
