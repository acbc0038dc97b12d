import DocHarvest.Proofs.Data.Fields
import DocHarvest.Proofs.Record.WellFormed

set_option autoImplicit false

namespace DocHarvest

def HasPart (lead name : Text) : Prop := ∃ part ∈ name.splitOn '.', lead <+: part

instance (lead name : Text) : Decidable (HasPart lead name) :=
  inferInstanceAs (Decidable (∃ part ∈ name.splitOn '.', lead <+: part))

theorem isPrivate_eq_decide (lead name : Text) :
    isPrivate lead name = decide (HasPart lead name) := by
  rw [Bool.eq_iff_iff, decide_eq_true_iff]
  simp [isPrivate, HasPart, List.isPrefixOf_iff_prefix]

namespace Signature

-- A lead with a character that no identifier holds marks nothing as private.
theorem IsQualified.not_hasPart {name lead : Text} (qualified : IsQualified name)
    (foreign : ∃ c ∈ lead, Text.isWord c = false) : ¬ HasPart lead name := by
  rintro ⟨part, member, starts⟩
  obtain ⟨c, in_lead, no_word⟩ := foreign
  have identifier := qualified.isIdentifier_of_mem part member
  have word := isWord_of_isIdentifier identifier c (starts.subset in_lead)
  rw [no_word] at word
  cases word

end Signature

namespace Settings

def withLead (s : Settings) (lead : Text) : Settings := { s with privatePrefix := lead }

-- Options with another lead, which takes the place of the one that they give, if any.
def putLead (options : Fields) (lead : Text) : Fields :=
  Fields.put Key.privatePrefix.text (.text lead) options

theorem get?_putLead (options : Fields) (lead : Text) (k : Key) : k.get? (putLead options lead) =
    if k = .privatePrefix then some (.text lead) else k.get? options := by
  rw [Key.get?, putLead, Fields.get?_put, Key.get?]
  cases k <;> rfl

theorem resolve_putLead {options : Fields} {s : Settings} (accepted : resolve options = .ok s)
    {lead : Text} (some_lead : lead ≠ []) :
    resolve (putLead options lead) = .ok (s.withLead lead) := by
  have clean : issuesAmong Key.ofRules ruleIssues (putLead options lead) = [] := by
    rw [issuesAmong, List.flatMap_eq_nil_iff]
    intro k rule
    rw [get?_putLead]
    by_cases own : k = .privatePrefix
    · simp [own, ruleIssues, some_lead]
    · rw [if_neg own]
      cases given : k.get? options with
      | none => rfl
      | some v => exact ruleIssues_of_resolve accepted rule given
  unfold resolve at accepted
  split at accepted
  · cases accepted
    simp [resolve, clean, textOr, lookaheadOr, get?_putLead, withLead]
  · cases accepted

end Settings

section Sections

variable {s : Settings} {lines : List Text}

theorem annotation?_withLead (lead : Text) (inFence : Bool) (line : Text) :
    Comment.annotation? (s.withLead lead) inFence line = Comment.annotation? s inFence line := rfl

theorem Draft.extend_withLead (lead : Text) (rest : List Text) (d : Draft) (taken blanks : Nat) :
    d.extend (s.withLead lead) taken blanks rest = d.extend s taken blanks rest := by
  induction rest generalizing d taken blanks with
  | nil => rfl
  | cons line rest ih =>
    simp only [Draft.extend, ih]
    rfl

theorem Block.parser_withLead (lead : Text) : Block.parser (s.withLead lead) = Block.parser s := by
  funext c
  unfold Block.parser
  cases c.after with
  | nil => rfl
  | cons line rest =>
    simp only [annotation?_withLead, Draft.extend_withLead]
    rfl

theorem Section.IsFirst.withLead {base : Nat} {x : Section} (first : x.IsFirst s lines base)
    (lead : Text) : x.IsFirst (s.withLead lead) lines base where
  start := first.start
  block := by
    rw [Block.parser_withLead]
    exact first.block
  definition :=
    match x.definition, first.definition with
    | none, missing => missing
    | some _, found => found

theorem Decomposes.withLead {base : Nat} {xs : List Section} (sections : Decomposes s lines base xs)
    (lead : Text) : Decomposes (s.withLead lead) lines base xs := by
  induction sections with
  | done none_left => exact .done none_left
  | step first _ ih => exact .step (first.withLead lead) ih

-- A section lists its record under one lead if it lists it under another that hides nothing, and
-- the name is not private.
theorem Section.IsFirst.filter_record? {base : Nat} {x : Section} (first : x.IsFirst s lines base)
    {other : Text} (foreign : ∃ c ∈ other, Text.isWord c = false) (lead : Text) :
    (x.record? (s.withLead other)).filter (fun r => decide (¬ HasPart lead r.name)) =
      x.record? (s.withLead lead) := by
  have definition := first.definition
  cases found : x.definition with
  | none => simp [Section.record?, found]
  | some pair =>
    obtain ⟨d, sig⟩ := pair
    rw [found] at definition
    obtain ⟨_, line, _, read⟩ := definition
    have shown := (Signature.wellFormed_of_ofLine? read).name.not_hasPart foreign
    have listed (lead : Text) : x.record? (s.withLead lead) =
        if HasPart lead sig.name then none else some (Record.ofParts s sig x.block) := by
      simp only [Section.record?, found, Option.bind_some, isPrivate_eq_decide, decide_eq_true_eq]
      rfl
    rw [listed other, if_neg shown, listed lead]
    by_cases hidden : HasPart lead sig.name <;> simp [Option.filter, hidden, Record.ofParts]

end Sections

/-- Under two leads, of which one hides nothing, the records differ by those with a private name. -/
theorem ofLines_filter_private {options : Fields} {s : Settings}
    (accepted : Settings.resolve options = .ok s) (lines : List Text) {lead other : Text}
    (some_lead : lead ≠ []) (foreign : ∃ c ∈ other, Text.isWord c = false) :
    Settings.resolve (Settings.putLead options lead) = .ok (s.withLead lead) ∧
      Settings.resolve (Settings.putLead options other) = .ok (s.withLead other) ∧
      Record.ofLines (s.withLead lead) lines =
        (Record.ofLines (s.withLead other) lines).filter
          (fun r => decide (¬ HasPart lead r.name)) ∧
      ∀ r ∈ Record.ofLines (s.withLead lead) lines, ¬ HasPart lead r.name := by
  have some_other : other ≠ [] := by
    rintro rfl
    simp at foreign
  obtain ⟨xs, sections⟩ := exists_decomposes s lines
  have filtered : Record.ofLines (s.withLead lead) lines =
      (Record.ofLines (s.withLead other) lines).filter
        (fun r => decide (¬ HasPart lead r.name)) := by
    rw [(sections.withLead lead).ofLines, (sections.withLead other).ofLines, List.filter_filterMap]
    apply List.filterMap_congr
    intro x member
    obtain ⟨base, first⟩ := sections.exists_isFirst x member
    exact (first.filter_record? foreign lead).symm
  refine ⟨Settings.resolve_putLead accepted some_lead, Settings.resolve_putLead accepted some_other,
    filtered, ?_⟩
  intro r member
  rw [filtered] at member
  exact of_decide_eq_true (List.mem_filter.mp member).2

theorem ofLines_filter_private_sample :
    let options : Fields := [("privatePrefix".toList, .text "M".toList)]
    let s := Settings.default.withLead "M".toList
    let lead := "__".toList
    let other := "$".toList
    let lines := ["--- Hidden.", "function M.__p.q()", "--- Shown.", "function M.f__(x)"].map
      String.toList
    (Settings.resolve options = .ok s ∧ lead ≠ [] ∧ ∃ c ∈ other, Text.isWord c = false) ∧
      ((Record.ofLines (s.withLead other) lines).map Record.name).any
        (fun name => decide (HasPart lead name)) = true ∧
      Record.ofLines (s.withLead lead) lines =
        (Record.ofLines (s.withLead other) lines).filter
          (fun r => decide (¬ HasPart lead r.name)) := by
  intro options s lead other lines
  have accepted : Settings.resolve options = .ok s := rfl
  have foreign : ∃ c ∈ other, Text.isWord c = false := ⟨'$', by simp [other], by decide⟩
  have hidden : ((Record.ofLines (s.withLead other) lines).map Record.name).any
      (fun name => decide (HasPart lead name)) = true := by
    rw [Record.ofLines, Record.scan_of_block (by decide) rfl]
    rfl
  exact ⟨⟨accepted, by decide, foreign⟩, hidden,
    (ofLines_filter_private accepted lines (by decide) foreign).2.2.1⟩

end DocHarvest
