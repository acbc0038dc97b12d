import DocHarvest.Proofs.Comment.Acceptance
import DocHarvest.Proofs.Settings.Resolve
import DocHarvest.Proofs.TypeTerm.Tiling

set_option autoImplicit false

namespace DocHarvest

open TypeTerm

namespace Tail

structure WellFormed (tail : Tail) : Prop where
  type : Text.trim tail.type = tail.type
  description : Trimmed tail.description

theorem ofText_wellFormed {t : Text} (single : Text.oneLine t = true) : (ofText t).WellFormed where
  type := (ofText_trimmed t).1
  description :=
    ⟨(ofText_trimmed t).2, Text.oneLine_of_subset (fun _ => mem_of_mem_description) single⟩

end Tail

-- In a fence a text is code, which keeps the blanks at its front.
def Annotation.WellFormed (s : Settings) (inFence : Bool) : Annotation → Prop
  | .generic g => IsRun Text.isWord g.name ∧ g.type = s.defaultParamType
  | .param p => IsFilled p.type ∧ Trimmed p.description
  | .returns r => IsFilled r.type ∧ Trimmed r.description
  | .fenceOpen lang => IsRun Text.isWord lang
  | .fenceClose => True
  | .prose t =>
    if inFence then Text.trimEnd t = t ∧ Text.oneLine t = true else t ≠ [] ∧ Trimmed t

namespace Comment

variable {s : Settings} {line : Text}

theorem isFilled_orElse {t fallback : Text} (trimmed : Text.trim t = t)
    (filled : IsFilled fallback) : IsFilled (orElse t fallback) := by
  by_cases empty : t = []
  · rwa [orElse, if_pos empty]
  · rw [orElse, if_neg empty]
    exact ⟨empty, trimmed⟩

theorem isRun_of_run? {p : Char → Bool} {t run rest : Text}
    (read : Text.run? p t = some (run, rest)) : IsRun p run := by
  simp only [Text.run?, Option.ite_none_left_eq_some, Option.some.injEq, Prod.mk.injEq] at read
  obtain ⟨some_char, rfl, _⟩ := read
  exact ⟨some_char, List.all_takeWhile⟩

theorem oneLine_of_filling? {t shown : Text} (filled : filling? t = some shown) :
    Text.oneLine shown = true := by
  simp only [filling?, Option.ite_none_right_eq_some, Bool.and_eq_true, Option.some.injEq] at filled
  obtain ⟨⟨_, single⟩, rfl⟩ := filled
  exact single

theorem generic?_wellFormed {g : Generic} (said : generic? s line = some g) :
    Annotation.WellFormed s false (.generic g) := by
  simp only [generic?, Option.bind_eq_bind, Option.bind_eq_some_iff, Option.pure_def,
    Option.some.injEq, Prod.exists] at said
  obtain ⟨_, _, _, _, name, _, read, rfl⟩ := said
  exact ⟨isRun_of_run? read, rfl⟩

theorem param?_wellFormed (usable : s.Usable) {p : Param} (said : param? s line = some p) :
    Annotation.WellFormed s false (.param p) := by
  simp only [param?, Option.bind_eq_bind, Option.bind_eq_some_iff, Option.pure_def,
    Option.some.injEq, Prod.exists] at said
  obtain ⟨_, _, _, _, _, _, _, _, _, shown, filled, rfl⟩ := said
  have tail := Tail.ofText_wellFormed (oneLine_of_filling? filled)
  exact ⟨isFilled_orElse tail.type usable.paramType, tail.description⟩

theorem returns?_wellFormed (usable : s.Usable) {r : Returns} (said : returns? s line = some r) :
    Annotation.WellFormed s false (.returns r) := by
  simp only [returns?, Option.bind_eq_bind, Option.bind_eq_some_iff, Option.pure_def,
    Option.some.injEq] at said
  obtain ⟨_, _, _, _, shown, filled, rfl⟩ := said
  have tail := Tail.ofText_wellFormed (oneLine_of_filling? filled)
  exact ⟨isFilled_orElse tail.type usable.returnType, tail.description⟩

theorem fenceOpen?_wellFormed (usable : s.Usable) {lang : Text}
    (said : fenceOpen? s line = some lang) : Annotation.WellFormed s false (.fenceOpen lang) := by
  obtain ⟨t, _, rfl⟩ := Option.map_eq_some_iff.mp said
  by_cases empty : (Text.dropBlanks t).takeWhile Text.isWord = []
  · rw [orElse, if_pos empty]
    exact usable.codeLang
  · rw [orElse, if_neg empty]
    exact ⟨empty, List.all_takeWhile⟩

theorem outsideFence?_eq_prose {t : Text} (said : outsideFence? s line = some (some (.prose t))) :
    isEmpty line = false ∧ prose? line = some t := by
  unfold outsideFence? at said
  split at said
  · simp at said
  · split at said
    · simp at said
    · split at said
      · simp at said
      · split at said
        · simp at said
        · split at said
          · simp at said
          · next shown => exact ⟨by simp_all [isIgnored], by simpa using said⟩

theorem prose_wellFormed {t : Text} (said : outsideFence? s line = some (some (.prose t))) :
    Annotation.WellFormed s false (.prose t) := by
  obtain ⟨not_empty, told⟩ := outsideFence?_eq_prose said
  obtain ⟨u, body, told⟩ := Option.bind_eq_some_iff.mp told
  simp only [Option.ite_none_right_eq_some, Option.some.injEq] at told
  obtain ⟨single, rfl⟩ := told
  refine ⟨?_, Text.trim_trim u, single⟩
  intro nothing
  have blank := Text.allBlank_of_trim_eq_nil nothing
  simp [isEmpty, body, blank] at not_empty

theorem code_wellFormed {t : Text} (shown : code? line = some t) :
    Annotation.WellFormed s true (.prose t) := by
  obtain ⟨u, _, shown⟩ := Option.bind_eq_some_iff.mp shown
  simp only [Option.ite_none_right_eq_some, Option.some.injEq] at shown
  obtain ⟨single, rfl⟩ := shown
  refine ⟨Text.trimEnd_of_last (Text.last_trimEnd_shown _), ?_⟩
  apply Text.oneLine_of_subset _ single
  intro c member
  have inside := Text.mem_of_mem_trimEnd member
  split at inside
  · exact List.mem_cons_of_mem ' ' inside
  · exact inside

theorem annotation?_wellFormed (usable : s.Usable) {inFence : Bool} {a : Annotation}
    (said : annotation? s inFence line = some (some a)) : a.WellFormed s inFence := by
  cases inFence with
  | true =>
    change insideFence? line = some (some a) at said
    unfold insideFence? at said
    split at said
    · cases said
      trivial
    · obtain ⟨t, shown, same⟩ := Option.map_eq_some_iff.mp said
      cases same
      exact code_wellFormed shown
  | false =>
    change outsideFence? s line = some (some a) at said
    rcases outsideFence?_cases said with ⟨g, read, same⟩ | ⟨p, read, same⟩ | ⟨r, read, same⟩ |
      ⟨lang, read, same⟩ | ⟨_, same⟩ | ⟨t, _, same⟩
    · cases same
      exact generic?_wellFormed read
    · cases same
      exact param?_wellFormed usable read
    · cases same
      exact returns?_wellFormed usable read
    · cases same
      exact fenceOpen?_wellFormed usable read
    · cases same
    · cases same
      exact prose_wellFormed said

end Comment

end DocHarvest
