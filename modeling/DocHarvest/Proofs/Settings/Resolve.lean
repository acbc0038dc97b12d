import DocHarvest.Proofs.Block.Rendering
import DocHarvest.Settings.Check

set_option autoImplicit false

namespace DocHarvest

structure IsFilled (t : Text) : Prop where
  ne_nil : t ≠ []
  trim : Text.trim t = t

structure Settings.Usable (s : Settings) : Prop where
  returnType : IsFilled s.defaultReturnType
  paramType : IsFilled s.defaultParamType
  codeLang : IsRun Text.isWord s.defaultCodeLang

namespace Settings

theorem ruleIssues_of_resolve {options : Fields} {s : Settings} (accepted : resolve options = .ok s)
    {k : Key} (rule : k ∈ Key.ofRules) {v : Value} (given : k.get? options = some v) :
    ruleIssues k v = [] := by
  unfold resolve at accepted
  split at accepted
  · next none_found =>
    rw [issuesAmong, List.flatMap_eq_nil_iff] at none_found
    simpa [given] using none_found k rule
  · cases accepted

theorem textOr_of_given {m : Fields} {P : Text → Prop} {k : Key} {fallback : Text}
    (given : ∀ t, k.get? m = some (.text t) → P t) (own : P fallback) :
    P (textOr k m fallback) := by
  unfold textOr
  split
  · next t found => exact given t found
  · exact own

-- A text is the one that was given, which passed its check, or the default.
theorem textOr_of_resolve {options : Fields} {s : Settings} (accepted : resolve options = .ok s)
    {P : Text → Prop} {k : Key} (rule : k ∈ Key.ofRules)
    (checked : ∀ t, ruleIssues k (.text t) = [] → P t) {fallback : Text} (own : P fallback) :
    P (textOr k options fallback) :=
  textOr_of_given (fun t given => checked t (ruleIssues_of_resolve accepted rule given)) own

theorem usable_of_resolve {options : Fields} {s : Settings} (accepted : resolve options = .ok s) :
    s.Usable := by
  have returnType : Text.trim (textOr .defaultReturnType options default.defaultReturnType) ≠ [] :=
    textOr_of_resolve accepted (P := fun t => Text.trim t ≠ []) (by decide)
      (fun t passed => by simpa [ruleIssues] using passed) (by decide)
  have paramType : Text.trim (textOr .defaultParamType options default.defaultParamType) ≠ [] :=
    textOr_of_resolve accepted (P := fun t => Text.trim t ≠ []) (by decide)
      (fun t passed => by simpa [ruleIssues] using passed) (by decide)
  have codeLang : IsRun Text.isWord (textOr .defaultCodeLang options default.defaultCodeLang) :=
    textOr_of_resolve accepted (by decide)
      (fun t passed => by simpa [ruleIssues, isRun_iff] using passed) (by decide)
  unfold resolve at accepted
  split at accepted
  · cases accepted
    exact ⟨⟨returnType, Text.trim_trim _⟩, ⟨paramType, Text.trim_trim _⟩, codeLang⟩
  · cases accepted

end Settings

end DocHarvest
