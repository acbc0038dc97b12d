import DocHarvest.Proofs.Config.Layers
import DocHarvest.Proofs.Settings.Resolve

set_option autoImplicit false

namespace DocHarvest.Settings

theorem Key.mem_all (k : Key) : k ∈ Key.all := by
  cases k <;> decide

inductive Stage where
  | file | rules
  deriving DecidableEq, Repr

namespace Stage

def keys : Stage → List Key
  | .file => Key.all
  | .rules => Key.ofRules

def check : Stage → Key → Value → List Issue
  | .file => fileIssues
  | .rules => ruleIssues

def unknown : Stage → Fields → List Issue
  | .file, m => unknownKeyIssues m
  | .rules, _ => []

def report (stage : Stage) (m : Fields) : List Issue :=
  issuesAmong stage.keys stage.check m ++ stage.unknown m

end Stage

@[mk_iff]
inductive HasType : Key → Value → Prop
  | number {x : Number} (number : x ≠ .nan) : HasType .lookahead (.number x)
  | text {k : Key} {t : Text} (other : k ≠ .lookahead) : HasType k (.text t)

-- The checks that a value violates. Those after the first are about values of the right type only.
@[mk_iff]
inductive Fault : Stage → Key → Value → Issue → Prop
  | wrongType {stage : Stage} {k : Key} {v : Value} (other : ¬ HasType k v) :
      Fault stage k v (.wrongType k v)
  | noPattern : Fault .file .pattern (.text []) (.empty .pattern)
  | notMode {t : Text} (unknown : ∀ mode : SortMode, mode.name.toList ≠ t) :
      Fault .file .sort (.text t) (.notMode t)
  | noLead : Fault .rules .privatePrefix (.text []) (.empty .privatePrefix)
  | notWhole {x : Number} (number : x ≠ .nan) (part : x.isWhole = false) :
      Fault .rules .lookahead (.number x) .notWhole
  | negative {x : Number} (number : x ≠ .nan) (below : x.isNegative = true) :
      Fault .rules .lookahead (.number x) .negative
  | blankReturn {t : Text} (blank : ∀ c ∈ t, Text.isBlank c = true) :
      Fault .rules .defaultReturnType (.text t) (.empty .defaultReturnType)
  | blankParam {t : Text} (blank : ∀ c ∈ t, Text.isBlank c = true) :
      Fault .rules .defaultParamType (.text t) (.empty .defaultParamType)
  | notOneWord {t : Text} (other : ¬ IsRun Text.isWord t) :
      Fault .rules .defaultCodeLang (.text t) .notOneWord

def Meets : Key → Value → Prop
  | .privatePrefix, .text t => t ≠ []
  | .lookahead, .number x => x.isWhole = true ∧ x.isNegative = false
  | .defaultReturnType, .text t => ∃ c ∈ t, Text.isBlank c = false
  | .defaultParamType, .text t => ∃ c ∈ t, Text.isBlank c = false
  | .defaultCodeLang, .text t => IsRun Text.isWord t
  | .pattern, .text t => t ≠ []
  | .sort, .text t => ∃ mode : SortMode, mode.name.toList = t
  | _, _ => False

section Check

variable {stage : Stage} {k : Key} {v : Value} {i : Issue}

theorem check_of_wrong_type (other : ¬ HasType k v) : stage.check k v = [.wrongType k v] := by
  cases stage <;> cases k <;> cases v <;>
    simp_all [hasType_iff, Stage.check, fileIssues, ruleIssues]

theorem fault_iff_of_wrong_type (other : ¬ HasType k v) :
    Fault stage k v i ↔ i = .wrongType k v := by
  constructor
  · intro fault
    cases fault with
    | wrongType _ => rfl
    | notWhole number _ | negative number _ => exact absurd (.number number) other
    | noPattern | notMode _ | noLead | blankReturn _ | blankParam _ | notOneWord _ =>
      exact absurd (.text (by decide)) other
  · intro same
    rw [same]
    exact .wrongType other

theorem check_lookahead {x : Number} (number : x ≠ .nan) : stage.check .lookahead (.number x) =
    match stage with
    | .file => []
    | .rules => (if x.isWhole then [] else [.notWhole]) ++
        (if x.isNegative then [.negative] else []) := by
  cases x with
  | nan => exact absurd rfl number
  | infinite | finite => cases stage <;> rfl

theorem ofName?_eq_none_iff {t : Text} :
    SortMode.ofName? t = none ↔ ∀ mode : SortMode, mode.name.toList ≠ t := by
  have listed (mode : SortMode) : mode ∈ SortMode.all := by cases mode <;> decide
  simp [SortMode.ofName?, List.find?_eq_none, listed]

theorem mem_check_text {t : Text} (other : k ≠ .lookahead) :
    i ∈ stage.check k (.text t) ↔ Fault stage k (.text t) i := by
  cases k <;> cases stage <;>
    simp_all [Stage.check, fileIssues, ruleIssues, fault_iff, hasType_iff, Text.trim_eq_nil_iff,
      isRun_iff, ofName?_eq_none_iff]

theorem mem_check_iff : i ∈ stage.check k v ↔ Fault stage k v i := by
  by_cases typed : HasType k v
  · cases typed with
    | number number =>
      cases stage <;> simp [check_lookahead number, fault_iff, hasType_iff, number]
    | text other => exact mem_check_text other
  · rw [check_of_wrong_type typed, fault_iff_of_wrong_type typed, List.mem_singleton]

theorem hasType_of_meets (meets : Meets k v) : HasType k v := by
  cases k <;> cases v <;> simp_all [Meets, hasType_iff]
  rintro rfl
  simp [Number.isWhole] at meets

theorem meets_iff_check : Meets k v ↔ ∀ stage : Stage, k ∈ stage.keys → stage.check k v = [] := by
  by_cases typed : HasType k v
  · have both {P : Stage → Prop} : (∀ stage, P stage) ↔ P .file ∧ P .rules :=
      ⟨fun all => ⟨all .file, all .rules⟩, fun each stage => by cases stage <;> simp [each]⟩
    rw [both]
    cases typed with
    | number number =>
      simp [Meets, check_lookahead number, Stage.keys, Key.ofRules]
    | text other =>
      cases k <;> simp_all [Meets, Stage.check, Stage.keys, fileIssues, ruleIssues, Key.all,
        Key.ofRules, Text.trim_eq_nil_iff, isRun_iff, ofName?_eq_none_iff]
  · constructor
    · intro meets
      exact absurd (hasType_of_meets meets) typed
    · intro passed
      have none_found := passed .file k.mem_all
      rw [check_of_wrong_type typed] at none_found
      cases none_found

theorem key?_of_fault (fault : Fault stage k v i) : i.key? = some k := by
  cases fault <;> rfl

end Check

-- Keys in their order, the two checks of one key in theirs, and keys that are no settings last.
def Issue.place (i : Issue) : Nat :=
  match i.key?, i with
  | some k, .negative => 2 * Key.all.idxOf k + 1
  | some k, _ => 2 * Key.all.idxOf k
  | none, _ => 2 * Key.all.length

inductive Violated (m : Fields) : Stage → Issue → Prop
  | of_value {stage : Stage} {k : Key} {v : Value} {i : Issue} (listed : k ∈ stage.keys)
      (given : k.get? m = some v) (fault : Fault stage k v i) : Violated m stage i
  | unknown (some_name : m.keys.filter Config.isForeign ≠ []) :
      Violated m .file (.unknownKeys (m.keys.filter Config.isForeign))

-- A full list of the issues of a stage, each once.
structure Reported (stage : Stage) (m : Fields) (issues : List Issue) : Prop where
  mem_iff : ∀ i, i ∈ issues ↔ Violated m stage i
  ordered : issues.Pairwise fun i j => i.place < j.place

section Report

variable {stage : Stage} {k : Key} {v : Value} {i : Issue}

theorem place_of_key {i : Issue} (own : i.key? = some k) :
    2 * Key.all.idxOf k ≤ i.place ∧ i.place ≤ 2 * Key.all.idxOf k + 1 := by
  unfold Issue.place
  rw [own]
  split <;> simp_all

theorem check_ordered (stage : Stage) (k : Key) (v : Value) :
    (stage.check k v).Pairwise fun i j => i.place < j.place := by
  by_cases typed : HasType k v
  · cases typed with
    | number number =>
      next x =>
      rw [check_lookahead number]
      cases stage with
      | file => exact .nil
      | rules => cases x.isWhole <;> cases x.isNegative <;> simp; decide
    | text other =>
      cases k <;> cases stage <;>
        simp only [Stage.check, fileIssues, ruleIssues, List.Pairwise.nil, List.pairwise_singleton]
      all_goals split <;> simp
  · rw [check_of_wrong_type typed]
    exact List.pairwise_singleton _ _

theorem mem_issuesAmong {m : Fields} : i ∈ issuesAmong stage.keys stage.check m ↔
    ∃ k ∈ stage.keys, ∃ v, k.get? m = some v ∧ Fault stage k v i := by
  simp only [issuesAmong, List.mem_flatMap, ← mem_check_iff]
  constructor
  · intro found
    rcases found with ⟨k, listed, member⟩
    cases given : k.get? m with
    | none => simp [given] at member
    | some v => exact ⟨k, listed, v, given, by simpa [given] using member⟩
  · intro found
    rcases found with ⟨k, listed, v, given, member⟩
    exact ⟨k, listed, by simpa [given] using member⟩

theorem issuesAmong_ordered (stage : Stage) (m : Fields) :
    (issuesAmong stage.keys stage.check m).Pairwise fun i j => i.place < j.place := by
  have keys : stage.keys.Pairwise fun k l => Key.all.idxOf k < Key.all.idxOf l := by
    cases stage <;> decide
  have own {k : Key} {i : Issue} (member : i ∈ ((k.get? m).map (stage.check k)).getD []) :
      i.key? = some k := by
    cases given : k.get? m with
    | none => simp [given] at member
    | some v => exact key?_of_fault (mem_check_iff.mp (by simpa [given] using member))
  rw [issuesAmong, List.pairwise_flatMap]
  constructor
  · intro k _
    cases k.get? m with
    | none => exact .nil
    | some v => exact check_ordered stage k v
  · apply keys.imp
    intro k l before i first j second
    have left := place_of_key (own first)
    have right := place_of_key (own second)
    omega

theorem unknownKeyIssues_eq (m : Fields) : unknownKeyIssues m =
    if m.keys.filter Config.isForeign = [] then []
    else [.unknownKeys (m.keys.filter Config.isForeign)] := by
  unfold unknownKeyIssues Config.isForeign
  split <;> simp_all

theorem mem_unknown {m : Fields} : i ∈ stage.unknown m ↔ stage = .file ∧
    m.keys.filter Config.isForeign ≠ [] ∧ i = .unknownKeys (m.keys.filter Config.isForeign) := by
  cases stage with
  | file =>
    rw [Stage.unknown, unknownKeyIssues_eq]
    by_cases none_found : m.keys.filter Config.isForeign = [] <;> simp [none_found]
  | rules => simp [Stage.unknown]

theorem mem_report_iff {m : Fields} : i ∈ stage.report m ↔ Violated m stage i := by
  rw [Stage.report, List.mem_append, mem_issuesAmong, mem_unknown]
  constructor
  · rintro (⟨k, listed, v, given, fault⟩ | ⟨rfl, some_name, rfl⟩)
    · exact .of_value listed given fault
    · exact .unknown some_name
  · intro violated
    cases violated with
    | of_value listed given fault => exact .inl ⟨_, listed, _, given, fault⟩
    | unknown some_name => exact .inr ⟨rfl, some_name, rfl⟩

theorem reported_report (stage : Stage) (m : Fields) : Reported stage m (stage.report m) := by
  refine ⟨fun i => mem_report_iff, ?_⟩
  rw [Stage.report, List.pairwise_append]
  refine ⟨issuesAmong_ordered stage m, ?_, ?_⟩
  · cases stage with
    | file =>
      rw [Stage.unknown, unknownKeyIssues_eq]
      split <;> simp
    | rules => exact .nil
  · intro i first j last
    obtain ⟨k, _, v, _, fault⟩ := mem_issuesAmong.mp first
    obtain ⟨_, _, rfl⟩ := mem_unknown.mp last
    have within := place_of_key (key?_of_fault fault)
    have known := List.idxOf_lt_length_of_mem k.mem_all
    have behind : (Issue.unknownKeys (m.keys.filter Config.isForeign)).place =
      2 * Key.all.length := rfl
    omega

end Report

end DocHarvest.Settings
