import DocHarvest.Proofs.Number.Value
import DocHarvest.Proofs.Settings.Issues

set_option autoImplicit false

namespace DocHarvest

open Settings

def Settings.Issue.unnamed : Issue → Issue
  | .unknownKeys _ => .unknownKeys []
  | i => i

def ConfigError.unnamed : ConfigError → ConfigError
  | .invalidRules issues => .invalidRules (issues.map Issue.unnamed)
  | .invalidFile issues source => .invalidFile (issues.map Issue.unnamed) source
  | e => e

namespace Config

def taken (m : Fields) : Config where
  settings :=
    { privatePrefix := textOr .privatePrefix m default.privatePrefix
      lookahead := lookaheadOr m default.lookahead
      defaultReturnType := Text.trim (textOr .defaultReturnType m default.defaultReturnType)
      defaultParamType := Text.trim (textOr .defaultParamType m default.defaultParamType)
      defaultCodeLang := textOr .defaultCodeLang m default.defaultCodeLang }
  pattern := textOr .pattern m defaultInclude
  sort := (SortMode.ofName? (textOr .sort m [])).getD defaultSort

-- The values of a configuration as fields hold them; no number is rounded.
def value (c : Config) : Key → Value
  | .privatePrefix => .text c.settings.privatePrefix
  | .lookahead => .number (.ofDyadic false c.settings.lookahead 0)
  | .defaultReturnType => .text c.settings.defaultReturnType
  | .defaultParamType => .text c.settings.defaultParamType
  | .defaultCodeLang => .text c.settings.defaultCodeLang
  | .pattern => .text c.pattern
  | .sort => .text c.sort.name.toList

def fields (c : Config) : Fields := Key.all.map fun k => (k.text, c.value k)

section Outcome

variable {m : Fields} {source : Option Text}

theorem validate_eq (m : Fields) (source : Option Text) : validate m source =
    if Stage.file.report m ≠ [] then .error (.invalidFile (Stage.file.report m) source)
    else if Stage.rules.report m ≠ [] then .error (.invalidRules (Stage.rules.report m))
    else .ok (taken m) := by
  have file : Stage.file.report m =
    issuesAmong Key.all fileIssues m ++ unknownKeyIssues m := rfl
  have rules : Stage.rules.report m = issuesAmong Key.ofRules ruleIssues m := List.append_nil _
  unfold validate
  rw [← file]
  cases Stage.file.report m with
  | cons i issues => rfl
  | nil =>
    simp only [resolveSettings, resolve, ← rules]
    cases Stage.rules.report m <;> rfl

theorem foreign_eq_nil_iff :
    m.keys.filter isForeign = [] ↔ ∀ name ∈ m.keys, ∃ k : Key, k.text = name := by
  simp [List.filter_eq_nil_iff, isForeign, Key.mem_all]

theorem report_eq_nil_iff {stage : Stage} : stage.report m = [] ↔
    (∀ k ∈ stage.keys, ∀ v, k.get? m = some v → stage.check k v = []) ∧ stage.unknown m = [] := by
  rw [Stage.report, List.append_eq_nil_iff, issuesAmong, List.flatMap_eq_nil_iff]
  refine and_congr_left fun _ => forall₂_congr fun k _ => ?_
  cases k.get? m <;> simp

theorem reports_eq_nil_iff : Stage.file.report m = [] ∧ Stage.rules.report m = [] ↔
    (∀ name ∈ m.keys, ∃ k : Key, k.text = name) ∧ ∀ k v, k.get? m = some v → Meets k v := by
  have unknown : unknownKeyIssues m = [] ↔ m.keys.filter isForeign = [] := by
    rw [unknownKeyIssues_eq]
    split <;> simp_all
  rw [report_eq_nil_iff, report_eq_nil_iff, ← foreign_eq_nil_iff, ← unknown]
  constructor
  · intro empty
    refine ⟨empty.1.2, fun k v given => meets_iff_check.mpr fun stage listed => ?_⟩
    cases stage with
    | file => exact empty.1.1 k listed v given
    | rules => exact empty.2.1 k listed v given
  · intro valid
    have passed (stage : Stage) (k : Key) (listed : k ∈ stage.keys) (v : Value)
        (given : k.get? m = some v) : stage.check k v = [] :=
      meets_iff_check.mp (valid.2 k v given) stage listed
    exact ⟨⟨passed .file, valid.1⟩, passed .rules, rfl⟩

theorem exists_validate_iff : (∃ c, validate m source = .ok c) ↔
    (∀ name ∈ m.keys, ∃ k : Key, k.text = name) ∧ ∀ k v, k.get? m = some v → Meets k v := by
  rw [← reports_eq_nil_iff, validate_eq]
  split_ifs <;> simp_all

theorem eq_taken_of_validate {c : Config} (accepted : validate m source = .ok c) :
    c = taken m := by
  rw [validate_eq] at accepted
  split_ifs at accepted
  exact (Except.ok.inj accepted).symm

-- A value of the wrong type would have been found in the first stage.
theorem no_wrong_type_of_typed (typed : Stage.file.report m = []) (k : Key) (v : Value) :
    .wrongType k v ∉ Stage.rules.report m := by
  intro member
  have violated := mem_report_iff.mp member
  cases violated with
  | of_value listed given fault =>
    cases fault with
    | wrongType other =>
      have again : Violated m .file (.wrongType k v) :=
        .of_value k.mem_all given (.wrongType other)
      have found := mem_report_iff.mpr again
      rw [typed] at found
      cases found

theorem violations_of_failure {e : ConfigError} (failed : validate m source = .error e) :
    (∃ issues, issues ≠ [] ∧ e = .invalidFile issues source ∧ Reported .file m issues) ∨
    ∃ issues, issues ≠ [] ∧ e = .invalidRules issues ∧ Reported .rules m issues ∧
      (∀ i, ¬ Violated m .file i) ∧ ∀ k v, .wrongType k v ∉ issues := by
  rw [validate_eq] at failed
  split_ifs at failed with file rules
  · exact .inl ⟨_, file, (Except.error.inj failed).symm, reported_report .file m⟩
  · have typed : Stage.file.report m = [] := by simpa using file
    have clean : ∀ i, ¬ Violated m .file i := by
      intro i violated
      simpa [typed] using mem_report_iff.mpr violated
    exact .inr ⟨_, rules, (Except.error.inj failed).symm, reported_report .rules m, clean,
      no_wrong_type_of_typed typed⟩

end Outcome

section Reordered

variable {m others : Fields}

theorem report_unnamed_of_perm (distinct : m.keys.Nodup) (perm : others.Perm m) (stage : Stage) :
    (stage.report others).map Issue.unnamed = (stage.report m).map Issue.unnamed := by
  have same (k : Key) : k.get? others = k.get? m := Fields.get?_perm distinct perm k.text
  have foreign : (others.keys.filter isForeign).Perm (m.keys.filter isForeign) :=
    (perm.map Prod.fst).filter _
  have empty : others.keys.filter isForeign = [] ↔ m.keys.filter isForeign = [] := by
    rw [← List.length_eq_zero_iff, foreign.length_eq, List.length_eq_zero_iff]
  have unknown : (stage.unknown others).map Issue.unnamed =
      (stage.unknown m).map Issue.unnamed := by
    cases stage with
    | file =>
      simp only [Stage.unknown, unknownKeyIssues_eq, empty]
      split <;> rfl
    | rules => rfl
  simp only [Stage.report, List.map_append, issuesAmong, same, unknown]

theorem validate_unnamed_of_perm (distinct : m.keys.Nodup) (perm : others.Perm m)
    (source : Option Text) : (validate others source).mapError ConfigError.unnamed =
      (validate m source).mapError ConfigError.unnamed := by
  have same (k : Key) : k.get? others = k.get? m := Fields.get?_perm distinct perm k.text
  have reports := report_unnamed_of_perm distinct perm
  have empty (stage : Stage) : stage.report others = [] ↔ stage.report m = [] := by
    rw [← List.map_eq_nil_iff (f := Issue.unnamed), reports, List.map_eq_nil_iff]
  have settled : taken others = taken m := by
    simp only [taken, textOr, lookaheadOr, same]
  simp only [validate_eq, ne_eq, empty, settled]
  split_ifs <;> simp [Except.mapError, ConfigError.unnamed, reports]

end Reordered

section Again

variable {m : Fields}

theorem meets_count (n : Nat) : Meets .lookahead (.number (.ofDyadic false n 0)) :=
  (Number.isCount_iff (Number.reduced_ofDyadic false n 0)).mpr ⟨n, Number.value?_count n⟩

theorem shown_trim {t : Text} (shown : ∃ c ∈ t, Text.isBlank c = false) :
    ∃ c ∈ Text.trim t, Text.isBlank c = false := by
  have some_text : Text.trim t ≠ [] := by
    rw [ne_eq, Text.trim_eq_nil_iff]
    simpa using shown
  rw [← Text.trim_trim, ne_eq, Text.trim_eq_nil_iff] at some_text
  simpa using some_text

theorem meets_default (k : Key) : Meets k ((taken []).value k) := by
  cases k with
  | privatePrefix | pattern => exact List.cons_ne_nil _ _
  | lookahead => exact meets_count _
  | defaultReturnType | defaultParamType => exact ⟨'a', by decide⟩
  | defaultCodeLang => exact ⟨by decide, by decide⟩
  | sort => exact ⟨.source, rfl⟩

theorem meets_taken (meets : ∀ k v, k.get? m = some v → Meets k v) (k : Key) :
    Meets k ((taken m).value k) := by
  have kept {k : Key} {fallback : Text} (own : Meets k (.text fallback)) :
      Meets k (.text (textOr k m fallback)) :=
    textOr_of_given (P := fun t => Meets k (.text t)) (fun _ => meets k _) own
  cases k with
  | privatePrefix => exact kept (meets_default .privatePrefix)
  | lookahead => exact meets_count _
  | defaultReturnType =>
    exact textOr_of_given (P := fun t => Meets .defaultReturnType (.text (Text.trim t)))
      (fun _ given => shown_trim (meets _ _ given)) (meets_default .defaultReturnType)
  | defaultParamType =>
    exact textOr_of_given (P := fun t => Meets .defaultParamType (.text (Text.trim t)))
      (fun _ given => shown_trim (meets _ _ given)) (meets_default .defaultParamType)
  | defaultCodeLang => exact kept (meets_default .defaultCodeLang)
  | pattern => exact kept (meets_default .pattern)
  | sort => exact ⟨_, rfl⟩

theorem get?_fields (c : Config) (k : Key) : k.get? c.fields = some (c.value k) := by
  cases k <;> rfl

theorem taken_fields {c : Config}
    (returnType : Text.trim c.settings.defaultReturnType = c.settings.defaultReturnType)
    (paramType : Text.trim c.settings.defaultParamType = c.settings.defaultParamType) :
    taken c.fields = c := by
  have count (n : Nat) : (Number.ofDyadic false n 0).floor? = some (n : Int) := by
    rw [Number.floor?_eq_floor_value, Number.value?_count]
    simp
  have mode (mode : SortMode) : SortMode.ofName? mode.name.toList = some mode := by
    cases mode <;> decide
  simp only [taken, textOr, lookaheadOr, get?_fields, value, count, mode, returnType, paramType,
    Option.getD_some, Int.toNat_natCast]

theorem validate_fields_of_validate {source : Option Text} {c : Config}
    (accepted : validate m source = .ok c) (source' : Option Text) :
    validate c.fields source' = .ok c := by
  have meets := (exists_validate_iff.mp ⟨c, accepted⟩).2
  have own := eq_taken_of_validate accepted
  have known : ∀ name ∈ c.fields.keys, ∃ k : Key, k.text = name := by
    intro name listed
    simp only [fields, Fields.keys, List.map_map, List.mem_map] at listed
    obtain ⟨k, _, same⟩ := listed
    exact ⟨k, same⟩
  have again : ∀ k v, k.get? c.fields = some v → Meets k v := by
    intro k v given
    rw [get?_fields, Option.some.injEq] at given
    rw [← given, own]
    exact meets_taken meets k
  obtain ⟨d, accepted'⟩ := exists_validate_iff.mpr ⟨known, again⟩
  rw [accepted', eq_taken_of_validate accepted', taken_fields]
  · rw [own]
    exact Text.trim_trim _
  · rw [own]
    exact Text.trim_trim _

end Again

-- Fields are accepted if they hold settings only, each with a value that its key asks for, where
-- the number of lines is a whole number that is not negative. Otherwise all that the first failing
-- stage checks and finds violated is listed, key by key in the order of the settings; which order
-- the fields have shows in the names of unknown keys only. What is accepted is accepted again.
theorem validate_lists_every_violation (m : Fields) (source : Option Text) :
    ((∃ c, validate m source = .ok c) ↔
      (∀ name ∈ m.keys, ∃ k : Key, k.text = name) ∧ ∀ k v, k.get? m = some v → Meets k v) ∧
    (∀ x : Number, x.Reduced →
      (x.isWhole = true ↔ ∃ z : ℤ, x.value? = some (z : ℚ)) ∧
      (x.isNegative = true ↔ x = .infinite true ∨ ∃ q < 0, x.value? = some q) ∧
      (Meets .lookahead (.number x) ↔ ∃ n : ℕ, x.value? = some (n : ℚ))) ∧
    (∀ e, validate m source = .error e →
      (∃ issues, issues ≠ [] ∧ e = .invalidFile issues source ∧ Reported .file m issues) ∨
      ∃ issues, issues ≠ [] ∧ e = .invalidRules issues ∧ Reported .rules m issues ∧
        (∀ i, ¬ Violated m .file i) ∧ ∀ k v, .wrongType k v ∉ issues) ∧
    (∀ others : Fields, others.Perm m → m.keys.Nodup →
      (validate others source).mapError ConfigError.unnamed =
        (validate m source).mapError ConfigError.unnamed) ∧
    ∀ c, validate m source = .ok c → ∀ source', validate c.fields source' = .ok c :=
  ⟨exists_validate_iff,
    fun x reduced =>
      ⟨Number.isWhole_iff reduced, Number.isNegative_iff x, Number.isCount_iff reduced⟩,
    fun _ => violations_of_failure,
    fun _ perm distinct => validate_unnamed_of_perm distinct perm source,
    fun _ => validate_fields_of_validate⟩

-- Both issues of the number are listed, and the lead comes before it although it is given later.
theorem validate_lists_every_violation_sample :
    let low : Number := .finite true 3 (-1)
    let m : Fields := [("lookahead".toList, .number low), ("privatePrefix".toList, .text [])]
    let issues : List Issue := [.empty .privatePrefix, .notWhole, .negative]
    let good : Fields := [("lookahead".toList, .number (.finite false 3 1))]
    let c : Config := ⟨{ Settings.default with lookahead := 6 }, defaultInclude, .source⟩
    (low.Reduced ∧ ¬ ∃ n : ℕ, low.value? = some (n : ℚ)) ∧
    (validate m none = .error (.invalidRules issues) ∧ Reported .rules m issues) ∧
    (m.reverse.Perm m ∧ m.keys.Nodup ∧
      (validate m.reverse none).mapError ConfigError.unnamed =
        (validate m none).mapError ConfigError.unnamed) ∧
    validate good none = .ok c ∧ validate c.fields none = .ok c := by
  intro low m issues good c
  obtain ⟨_, count, failure, reordered, _⟩ := validate_lists_every_violation m none
  have reduced : low.Reduced := by decide
  have unmet : ¬ Meets .lookahead (.number low) := fun meets => absurd meets.1 (by decide)
  have failed : validate m none = .error (.invalidRules issues) := rfl
  have distinct : m.keys.Nodup := by decide
  have accepted : validate good none = .ok c := rfl
  refine ⟨⟨reduced, mt (count low reduced).2.2.mpr unmet⟩, ⟨failed, ?_⟩,
    ⟨List.reverse_perm m, distinct, reordered _ (List.reverse_perm m) distinct⟩, accepted,
    (validate_lists_every_violation good none).2.2.2.2 c accepted none⟩
  rcases failure _ failed with ⟨found, _, same, _⟩ | ⟨found, _, same, reported, _⟩
  · cases same
  · cases same
    exact reported

end Config

end DocHarvest
