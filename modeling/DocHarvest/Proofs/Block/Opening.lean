import DocHarvest.Proofs.Block.Segmentation

set_option autoImplicit false

namespace DocHarvest

open Comment

namespace Comment

def IsFenceLead (t : Text) : Prop :=
  ∃ indent marker gap : Text, Text.allBlank indent = true ∧
    marker ∈ [plainMarker, richMarker].map String.toList ∧ Text.allBlank gap = true ∧
      t = indent ++ marker ++ gap ++ "```".toList

-- A language, which may be left out, with blanks around it.
def IsTag (t : Text) : Prop :=
  ∃ space lang tail : Text, Text.allBlank space = true ∧ lang.all Text.isWord = true ∧
    Text.allBlank tail = true ∧ t = space ++ lang ++ tail

def IsFenceLine (line : Text) : Prop :=
  ∃ lead rest, IsFenceLead lead ∧ line = lead ++ rest ∧ IsTag rest

def IsStray (line : Text) : Prop :=
  ∃ lead rest, IsFenceLead lead ∧ line = lead ++ rest ∧ ¬ IsTag rest

theorem afterMarker?_of_lead {lead : Text} (isLead : IsFenceLead lead) (rest : Text) :
    afterMarker? "```" (lead ++ rest) = some rest := by
  obtain ⟨indent, marker, gap, blank, known, between, rfl⟩ := isLead
  have behind : Text.dropBlanks (gap ++ ("```".toList ++ rest)) = "```".toList ++ rest := by
    rw [Text.dropBlanks_append_of_blank (List.all_eq_true.mp between)]
    exact Text.dropBlanks_of_head (by simp; decide)
  have no_dash : (gap ++ ("```".toList ++ rest)).head? ≠ some '-' := by
    cases gap with
    | nil => simp
    | cons c gap =>
      intro dash
      have blank_dash := List.all_eq_true.mp between c (by simp)
      rw [show c = '-' by simpa using dash] at blank_dash
      exact absurd blank_dash (by decide)
  have marked : Marked (indent ++ marker ++ gap ++ "```".toList ++ rest)
      (gap ++ ("```".toList ++ rest)) := by
    refine ⟨indent, marker, blank, by simp, ?_⟩
    simp only [List.map_cons, List.map_nil, List.mem_cons, List.not_mem_nil, or_false] at known
    exact known.symm.imp id fun plain => ⟨plain, no_dash⟩
  rw [afterMarker?, marked.body?, Option.bind_some, behind, after?_eq_some]

theorem lead_of_afterMarker? {line rest : Text} (read : afterMarker? "```" line = some rest) :
    ∃ lead, IsFenceLead lead ∧ line = lead ++ rest := by
  obtain ⟨body, found, read⟩ := Option.bind_eq_some_iff.mp read
  obtain ⟨indent, marker, blank, whole, kind⟩ := marked_of_body? found
  have parts : body = body.takeWhile Text.isBlank ++ ("```".toList ++ rest) := by
    rw [← after?_eq_some.mp read]
    exact List.takeWhile_append_dropWhile.symm
  refine ⟨indent ++ marker ++ body.takeWhile Text.isBlank ++ "```".toList,
    ⟨indent, marker, _, blank, ?_, List.all_takeWhile, rfl⟩, ?_⟩
  · rcases kind with rfl | ⟨rfl, _⟩ <;> simp
  · rw [whole]
    nth_rewrite 1 [parts]
    simp

theorem afterMarker?_iff_lead {line rest : Text} : afterMarker? "```" line = some rest ↔
    ∃ lead, IsFenceLead lead ∧ line = lead ++ rest := by
  constructor
  · exact lead_of_afterMarker?
  · rintro ⟨lead, isLead, rfl⟩
    exact afterMarker?_of_lead isLead rest

theorem isTag_iff (t : Text) :
    IsTag t ↔ Text.allBlank ((Text.dropBlanks t).dropWhile Text.isWord) = true := by
  constructor
  · rintro ⟨space, lang, tail, blank, word, behind, rfl⟩
    rw [List.append_assoc, Text.dropBlanks_append_of_blank (List.all_eq_true.mp blank)]
    have left : (Text.dropBlanks (lang ++ tail)).dropWhile Text.isWord <:+ tail := by
      cases lang with
      | nil => exact (List.dropWhile_suffix _).trans (List.dropWhile_suffix _)
      | cons c lang =>
        have shown : Text.isBlank c = false :=
          Text.isBlank_of_isWord (List.all_eq_true.mp word c (by simp))
        rw [Text.dropBlanks_of_head (by simpa using shown),
          List.dropWhile_append_of_pos (List.all_eq_true.mp word)]
        exact List.dropWhile_suffix _
    exact List.all_eq_true.mpr fun c member => List.all_eq_true.mp behind c (left.mem member)
  · intro behind
    refine ⟨t.takeWhile Text.isBlank, (Text.dropBlanks t).takeWhile Text.isWord, _,
      List.all_takeWhile, List.all_takeWhile, behind, ?_⟩
    rw [List.append_assoc, List.takeWhile_append_dropWhile]
    exact List.takeWhile_append_dropWhile.symm

instance (t : Text) : Decidable (IsTag t) := decidable_of_iff _ (isTag_iff t).symm

theorem fenceOpen?_isSome_iff (s : Settings) (line : Text) :
    (fenceOpen? s line).isSome = true ↔ IsFenceLine line ∨ IsStray line := by
  rw [fenceOpen?, Option.isSome_map, Option.isSome_iff_exists]
  simp only [afterMarker?_iff_lead]
  constructor
  · rintro ⟨rest, lead, isLead, whole⟩
    by_cases tag : IsTag rest
    · exact .inl ⟨lead, rest, isLead, whole, tag⟩
    · exact .inr ⟨lead, rest, isLead, whole, tag⟩
  · rintro (⟨lead, rest, isLead, whole, _⟩ | ⟨lead, rest, isLead, whole, _⟩)
    · exact ⟨rest, lead, isLead, whole⟩
    · exact ⟨rest, lead, isLead, whole⟩

theorem IsStray.not_isFenceLine {line : Text} (stray : IsStray line) : ¬ IsFenceLine line := by
  rintro ⟨lead, rest, isLead, whole, tag⟩
  obtain ⟨lead', rest', isLead', whole', noTag⟩ := stray
  have read := afterMarker?_iff_lead.mpr ⟨lead, isLead, whole⟩
  rw [afterMarker?_iff_lead.mpr ⟨lead', isLead', whole'⟩, Option.some.injEq] at read
  exact noTag (read ▸ tag)

end Comment

namespace Draft

variable {s : Settings} {d : Draft} {line : Text}

theorem inFence_add_outside {a : Option Annotation} (outside : d.inFence = false)
    (said : annotation? s false line = some a) :
    (d.add a).inFence = (fenceOpen? s line).isSome := by
  cases opens : fenceOpen? s line with
  | some lang =>
    have opener : annotation? s false line = some (some (.fenceOpen lang)) :=
      outsideFence?_of_fenceOpen? opens
    rw [said, Option.some.injEq] at opener
    rw [opener]
    rfl
  | none =>
    have closed : d = ⟨d.block, none⟩ := by
      cases d
      simpa [inFence] using outside
    obtain ⟨a', said', added⟩ := read?_prose ⟨opens, by simp [said]⟩ d.block
    rw [said, Option.some.injEq] at said'
    rw [closed, said', added]
    rfl

theorem add_code {t : Text} (inside : d.inFence = true) :
    (d.add (some (.prose t))).block = d.block ∧ (d.add (some (.prose t))).inFence = true := by
  obtain ⟨f, fence⟩ := Option.isSome_iff_exists.mp inside
  simp [add, addText, inFence, fence]

-- As long as no line closes the fence, every line that is read is code.
theorem block_extend_inside {lines : List Text} (inside : d.inFence = true)
    (unclosed : ∀ line ∈ lines, closesFence line = false) (taken blanks : Nat) :
    (d.extend s taken blanks lines).1.block = d.block := by
  induction lines generalizing d taken blanks with
  | nil => rfl
  | cons line rest ih =>
    have later : ∀ l ∈ rest, closesFence l = false := fun l member => unclosed l (by simp [member])
    have mode : annotation? s d.inFence line = (code? line).map fun t => some (.prose t) := by
      simp [annotation?, insideFence?, inside, unclosed line (by simp)]
    rw [extend]
    split
    · exact ih inside later taken (blanks + 1)
    · rw [mode]
      cases code? line with
      | none => rfl
      | some t =>
        have added := add_code (t := t) inside
        rw [Option.map_some]
        exact (ih added.2 later (taken + blanks + 1) 0).trans added.1

theorem block_extend_opener {later : List Text} (outside : d.inFence = false)
    (opens : (fenceOpen? s line).isSome = true)
    (unclosed : ∀ l ∈ later, closesFence l = false) (taken blanks : Nat) :
    (d.extend s taken blanks (line :: later)).1.block = d.block := by
  obtain ⟨lang, opens⟩ := Option.isSome_iff_exists.mp opens
  have said : annotation? s d.inFence line = some (some (.fenceOpen lang)) := by
    rw [outside]
    exact outsideFence?_of_fenceOpen? opens
  have shown : isBlankLine line = false := isBlankLine_of_annotation? (by rw [said]; rfl)
  rw [extend, shown, said]
  exact block_extend_inside rfl unclosed (taken + blanks + 1) 0

end Draft

/-- The lines that open a fence are the fence lines and the stray ones. Either kind switches the
mode of a block, and what is said behind it is hidden unless a later line closes the fence. -/
theorem fence_opened_iff_fence_or_stray (s : Settings) (line : Text) :
    ((fenceOpen? s line).isSome = true ↔ IsFenceLine line ∨ IsStray line) ∧
    ¬ (IsFenceLine line ∧ IsStray line) ∧
    ∀ d : Draft, d.inFence = false →
      (∀ a, annotation? s false line = some a →
        ((d.add a).inFence = true ↔ IsFenceLine line ∨ IsStray line)) ∧
      (IsFenceLine line ∨ IsStray line → ∀ later, (∀ l ∈ later, closesFence l = false) →
        ∀ taken blanks, (d.extend s taken blanks (line :: later)).1.block = d.block) := by
  have opened := fenceOpen?_isSome_iff s line
  refine ⟨opened, fun both => both.2.not_isFenceLine both.1, ?_⟩
  intro d outside
  constructor
  · intro a said
    rw [← opened, Draft.inFence_add_outside outside said]
  · intro kind later unclosed taken blanks
    exact Draft.block_extend_opener outside (opened.mpr kind) unclosed taken blanks

-- The parameter behind the span of code does not reach the block.
theorem fence_opened_iff_fence_or_stray_sample :
    let s := Settings.default
    let line := "\t-- ```x``` is code".toList
    let later := ["---@param x number", "", "--- ```lua"].map String.toList
    let d := Draft.empty s
    d.inFence = false ∧ IsStray line ∧ (fenceOpen? s line).isSome = true ∧ ¬ IsFenceLine line ∧
      (d.add (some (.fenceOpen "x".toList))).inFence = true ∧
      (d.extend s 0 0 (line :: later)).1.block = d.block := by
  intro s line later d
  have stray : IsStray line := by
    refine ⟨"\t-- ```".toList, "x``` is code".toList,
      ⟨"\t".toList, "--".toList, " ".toList, by decide, by decide, by decide, rfl⟩, rfl, ?_⟩
    decide
  have unclosed : ∀ l ∈ later, closesFence l = false := by decide
  obtain ⟨opened, apart, effect⟩ := fence_opened_iff_fence_or_stray s line
  obtain ⟨mode, hidden⟩ := effect d rfl
  exact ⟨rfl, stray, opened.mpr (.inr stray), fun fence => apart ⟨fence, stray⟩,
    (mode _ (by decide)).mpr (.inr stray), hidden (.inr stray) later unclosed 0 0⟩

theorem inline_code_opens_fence :
    let s := Settings.default
    let line := "--- ```x``` is code".toList
    let c := Cursor.start [line, "---@param x number".toList] (Context.outside s.defaultCodeLang)
    ¬ IsFenceLine line ∧ (fenceOpen? s line).isSome = true ∧
      ∃ next, Block.parser s c = some (Block.empty s, next) := by
  intro s line c
  have stray : IsStray line := by
    refine ⟨"--- ```".toList, "x``` is code".toList,
      ⟨[], "---".toList, " ".toList, by decide, by decide, by decide, rfl⟩, rfl, ?_⟩
    decide
  exact ⟨stray.not_isFenceLine, by decide, _, rfl⟩

end DocHarvest
