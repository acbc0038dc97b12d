import DocHarvest.Config.Load
import DocHarvest.Proofs.Data.Fields
import Mathlib

set_option autoImplicit false

namespace DocHarvest

open Settings

namespace Config

section Tables

variable {table : List (Key × String)} {value : Key → String → Option Value}

def gathered (table : List (Key × String)) (value : Key → String → Option Value) : Fields :=
  table.filterMap fun e => (value e.1 e.2).map fun v => (e.1.text, v)

theorem ofEnvironment_eq (env : Environment) : ofEnvironment env =
    gathered settingVariables fun key name => (env.get? name).map (variableValue key) := by
  simp [ofEnvironment, gathered, Function.comp_def]

theorem ofOverrides_eq (overrides : Fields) : ofOverrides overrides =
    gathered overridable fun _ name => Fields.get? overrides name.toList := rfl

def names (table : List (Key × String)) : List Text := table.map fun e => e.1.text

theorem keys_gathered (table : List (Key × String)) (value : Key → String → Option Value) :
    (gathered table value).keys.Sublist (names table) := by
  induction table with
  | nil => exact .slnil
  | cons e table ih =>
    cases given : value e.1 e.2 with
    | none => simpa [gathered, names, given] using ih.cons e.1.text
    | some v => simpa [gathered, names, given, Fields.keys] using ih.cons_cons e.1.text

theorem get?_gathered (distinct : (names table).Nodup) {key : Key} {name : String}
    (member : (key, name) ∈ table) :
    Fields.get? (gathered table value) key.text = value key name := by
  induction table with
  | nil => cases member
  | cons e table ih =>
    have distinct := List.nodup_cons.mp distinct
    have absent : Fields.get? (gathered table value) e.1.text = none :=
      Fields.get?_eq_none fun listed => distinct.1 ((keys_gathered table value).mem listed)
    rcases List.mem_cons.mp member with rfl | member
    · cases given : value key name with
      | none => simpa [gathered, given] using absent
      | some v => simp [gathered, given, Fields.get?_cons]
    · have differ : key.text ≠ e.1.text :=
        fun same => distinct.1 (List.mem_map.mpr ⟨_, member, same⟩)
      have later := ih distinct.2 member
      cases given : value e.1 e.2 with
      | none => simpa [gathered, given] using later
      | some v => simpa [gathered, given, Fields.get?_cons, differ] using later

end Tables

def layers : List (Key × String × String) :=
  [(.privatePrefix, "privatePrefix", "DOCSCAN_PRIVATE_PREFIX"),
   (.lookahead, "lookahead", "DOCSCAN_LOOKAHEAD"),
   (.defaultReturnType, "defaultReturn", "DOCSCAN_DEFAULT_RETURN"),
   (.pattern, "include", "DOCSCAN_INCLUDE"), (.sort, "sort", "DOCSCAN_SORT")]

def layerNames : List Text := layers.map fun e => e.1.text

-- The value of a setting: that of its option if it has any, or else that of its variable if this is
-- not empty, or else that of the file.
def uppermost (file : Fields) (env : Environment) (overrides : Fields)
    (e : Key × String × String) : Option Value :=
  match Fields.get? overrides e.2.1.toList, env.lookup e.2.2.toList with
  | some v, _ => some v
  | none, some (c :: t) =>
    some (if e.1 = .lookahead then .number (Number.ofText (c :: t)) else .text (c :: t))
  | none, _ => e.1.get? file

def isForeign (name : Text) : Bool := !(Key.all.map Key.text).contains name

-- Fields with the uppermost value of each setting that has layers. All other keys are those of the
-- file, and the ones that are no settings are listed in its order.
structure Layered (file : Fields) (env : Environment) (overrides merged : Fields) : Prop where
  settings : ∀ e ∈ layers, e.1.get? merged = uppermost file env overrides e
  others : ∀ name ∉ layerNames, Fields.get? merged name = Fields.get? file name
  foreign : merged.keys.filter isForeign = file.keys.filter isForeign

def IsCovered (env : Environment) (overrides : Fields) (name : Text) : Prop :=
  ∃ e ∈ layers, e.1.text = name ∧
    ((∃ v, Fields.get? overrides e.2.1.toList = some v) ∨
      ∃ t, env.lookup e.2.2.toList = some t ∧ t ≠ [])

section Merge

variable (file : Fields) (env : Environment) (overrides : Fields)

theorem keys_ofEnvironment : (ofEnvironment env).keys.Sublist layerNames := by
  rw [ofEnvironment_eq]
  exact keys_gathered settingVariables _

theorem keys_ofOverrides : (ofOverrides overrides).keys.Sublist layerNames := by
  rw [ofOverrides_eq]
  exact keys_gathered overridable _

theorem layerNames_nodup : layerNames.Nodup := by decide

theorem get?_merge (name : Text) : Fields.get? (merge file env overrides) name =
    (Fields.get? (ofOverrides overrides) name).or
      ((Fields.get? (ofEnvironment env) name).or (Fields.get? file name)) := by
  rw [merge, Fields.get?_overlay ((keys_ofOverrides overrides).nodup layerNames_nodup),
    Fields.get?_overlay ((keys_ofEnvironment env).nodup layerNames_nodup)]

theorem merge_settings {e : Key × String × String} (member : e ∈ layers) :
    e.1.get? (merge file env overrides) = uppermost file env overrides e := by
  have tables : ∀ e ∈ layers, (e.1, e.2.1) ∈ overridable ∧ (e.1, e.2.2) ∈ settingVariables := by
    decide
  have option_names : (names overridable).Nodup := layerNames_nodup
  have variable_names : (names settingVariables).Nodup := layerNames_nodup
  rw [Key.get?, get?_merge, ofOverrides_eq, ofEnvironment_eq,
    get?_gathered option_names (tables e member).1,
    get?_gathered variable_names (tables e member).2]
  unfold uppermost Environment.get?
  cases Fields.get? overrides e.2.1.toList with
  | some v => rfl
  | none =>
    cases env.lookup e.2.2.toList with
    | none => rfl
    | some t => cases t <;> rfl

theorem merge_layered : Layered file env overrides (merge file env overrides) where
  settings _ := merge_settings file env overrides
  others name other := by
    have no_option : Fields.get? (ofOverrides overrides) name = none :=
      Fields.get?_eq_none fun listed => other ((keys_ofOverrides overrides).mem listed)
    have no_variable : Fields.get? (ofEnvironment env) name = none :=
      Fields.get?_eq_none fun listed => other ((keys_ofEnvironment env).mem listed)
    rw [get?_merge, no_option, no_variable]
    rfl
  foreign := by
    have known : ∀ name ∈ layerNames, isForeign name = false := by decide
    rw [merge, Fields.filter_keys_overlay, Fields.filter_keys_overlay]
    · exact fun name listed => known name ((keys_ofEnvironment env).mem listed)
    · exact fun name listed => known name ((keys_ofOverrides overrides).mem listed)

end Merge

section Validate

variable {a b : Fields}

theorem resolve_congr (same : ∀ key : Key, key.get? a = key.get? b) : resolve a = resolve b := by
  have texts (key : Key) (fallback : Text) : textOr key a fallback = textOr key b fallback := by
    simp only [textOr, same]
  have lines (fallback : Nat) : lookaheadOr a fallback = lookaheadOr b fallback := by
    simp only [lookaheadOr, same]
  simp only [resolve, issuesAmong, same, texts, lines]

-- A check sees the values of the settings, and of all other keys only their names.
theorem validate_congr (same : ∀ key : Key, key.get? a = key.get? b)
    (foreign : a.keys.filter isForeign = b.keys.filter isForeign) (source : Option Text) :
    validate a source = validate b source := by
  have unknown : unknownKeyIssues a = unknownKeyIssues b := by
    unfold isForeign at foreign
    simp only [unknownKeyIssues, foreign]
  simp only [validate, resolveSettings, issuesAmong, same, unknown, resolve_congr same, textOr]

theorem validate_of_foreign {name : Text} (member : name ∈ a.keys.filter isForeign)
    (source : Option Text) : ∃ issues names,
      validate a source = .error (.invalidFile issues source) ∧
        .unknownKeys names ∈ issues ∧ name ∈ names := by
  have listed : unknownKeyIssues a = [.unknownKeys (a.keys.filter isForeign)] := by
    unfold unknownKeyIssues
    split
    · next none_found =>
      rw [show a.keys.filter isForeign = [] from none_found] at member
      cases member
    · rfl
  refine ⟨issuesAmong Key.all fileIssues a ++ unknownKeyIssues a, a.keys.filter isForeign, ?_, ?_,
    member⟩
  · unfold validate
    split
    · next none_found => simp [listed] at none_found
    · rfl
  · simp [listed]

end Validate

theorem layers_cases (key : Key) : (∃ e ∈ layers, e.1 = key) ∨ key.text ∉ layerNames := by
  cases key <;> decide

theorem layers_unique : ∀ e ∈ layers, ∀ f ∈ layers, e.1.text = f.1.text → e = f := by decide

section Layered

variable {file file' merged merged' overrides : Fields} {env : Environment}

theorem Layered.get?_eq (one : Layered file env overrides merged)
    (two : Layered file env overrides merged') (key : Key) :
    key.get? merged = key.get? merged' := by
  rcases layers_cases key with ⟨e, member, rfl⟩ | other
  · rw [one.settings e member, two.settings e member]
  · rw [Key.get?, Key.get?, one.others _ other, two.others _ other]

-- Files that agree outside of what is covered have the same fields after the layers are laid.
theorem Layered.of_agree (layered : Layered file env overrides merged)
    (order : file.keys = file'.keys)
    (agree : ∀ name, ¬ IsCovered env overrides name →
      Fields.get? file name = Fields.get? file' name) : Layered file' env overrides merged where
  settings e member := by
    rw [layered.settings e member]
    unfold uppermost
    split
    · rfl
    · rfl
    · next no_option no_variable =>
      apply agree
      rintro ⟨f, other, same, given⟩
      obtain rfl := layers_unique f other e member same
      rcases given with ⟨v, option⟩ | ⟨t, set, some_text⟩
      · simp [option] at no_option
      · cases t with
        | nil => exact some_text rfl
        | cons c t => exact no_variable c t set
  others name other := by
    rw [layered.others name other]
    apply agree
    rintro ⟨e, member, rfl, _⟩
    exact other (List.mem_map.mpr ⟨e, member, rfl⟩)
  foreign := by rw [layered.foreign, order]

end Layered

theorem load_of_read {tree : FileTree} {base : Path} {named : Option Text} {file merged : Fields}
    {env : Environment} {overrides : Fields} (read : fileFields tree base named = .ok file)
    (layered : Layered file env overrides merged) :
    load tree base env named overrides = validate merged named := by
  have laid := merge_layered file env overrides
  rw [load, read]
  exact validate_congr (laid.get?_eq layered) (laid.foreign.trans layered.foreign.symm) named

/-- The settings are those of any fields that hold, for each key, the value of the uppermost layer
that gives one. So files with the same keys that differ in covered values only are taken alike,
whatever these values are; and a key that is no setting is an error under all layers. -/
theorem load_takes_uppermost_layer {tree : FileTree} {base : Path} {named : Option Text}
    {file : Fields} (read : fileFields tree base named = .ok file) (env : Environment)
    (overrides : Fields) :
    (∃ merged, Layered file env overrides merged) ∧
    (∀ merged, Layered file env overrides merged →
      load tree base env named overrides = validate merged named) ∧
    (∀ (tree' : FileTree) (base' : Path) (file' : Fields),
      fileFields tree' base' named = .ok file' → file.keys = file'.keys →
      (∀ name, ¬ IsCovered env overrides name →
        Fields.get? file name = Fields.get? file' name) →
      load tree base env named overrides = load tree' base' env named overrides) ∧
    (∀ name ∈ file.keys, (∀ key : Key, key.text ≠ name) → ∃ issues names,
      load tree base env named overrides = .error (.invalidFile issues named) ∧
        .unknownKeys names ∈ issues ∧ name ∈ names) := by
  have laid := merge_layered file env overrides
  refine ⟨⟨_, laid⟩, fun merged => load_of_read read, ?_, ?_⟩
  · intro tree' base' file' read' order agree
    rw [load_of_read read laid, load_of_read read' (laid.of_agree order agree)]
  · intro name member no_setting
    have foreign : name ∈ (merge file env overrides).keys.filter isForeign := by
      rw [laid.foreign, List.mem_filter]
      refine ⟨member, ?_⟩
      simpa [isForeign] using fun key _ => no_setting key
    rw [load_of_read read laid]
    exact validate_of_foreign foreign named

def treeWith (settings : String) : FileTree where
  entries := [(⟨[['w']]⟩, .folder),
    (⟨[['w'], "docscan.config.json".toList]⟩, .file (some settings.toList))]

-- A text is no number of lines, but the environment covers it with the number that its text reads as.
theorem load_takes_uppermost_layer_sample :
    let base : Path := ⟨[['w']]⟩
    let file : Fields := [("lookahead".toList, .text ['x']), ("sort".toList, .text "source".toList)]
    let file' : Fields := [("lookahead".toList, .null), ("sort".toList, .text "source".toList)]
    let env : Environment := [("DOCSCAN_LOOKAHEAD".toList, ['7'])]
    let tree := treeWith "\x7b\"lookahead\":\"x\",\"sort\":\"source\"\x7d"
    let tree' := treeWith "\x7b\"lookahead\":null,\"sort\":\"source\"\x7d"
    let merged : Fields :=
      [("lookahead".toList, .number (.finite false 7 0)), ("sort".toList, .text "source".toList)]
    let config : Config := ⟨{ Settings.default with lookahead := 7 }, defaultInclude, .source⟩
    fileFields tree base none = .ok file ∧ fileFields tree' base none = .ok file' ∧
      Layered file env [] merged ∧ load tree base env none [] = .ok config ∧
      load tree' base env none [] = .ok config := by
  intro base file file' env tree tree' merged config
  have read : fileFields tree base none = .ok file := by cbv
  have read' : fileFields tree' base none = .ok file' := by cbv
  obtain ⟨_, of_layered, of_agree, _⟩ := load_takes_uppermost_layer read env []
  have number : Number.ofText ['7'] = .finite false 7 0 := by decide +kernel
  have passed {name : Text} (differ : name ≠ "lookahead".toList) (v : Value) (rest : Fields) :
      Fields.get? (("lookahead".toList, v) :: rest) name = Fields.get? rest name := by
    rw [Fields.get?_cons, if_neg differ]
  have layered : Layered file env [] merged := by
    refine ⟨?_, ?_, rfl⟩
    · have given : uppermost file env [] (.lookahead, "lookahead", "DOCSCAN_LOOKAHEAD") =
          some (.number (Number.ofText ['7'])) := rfl
      simp only [layers, List.forall_mem_cons]
      exact ⟨rfl, by rw [given, number]; rfl, rfl, rfl, rfl, by simp⟩
    · intro name other
      have differ : name ≠ "lookahead".toList := by
        rintro rfl
        exact other (by decide)
      exact (passed differ _ _).trans (passed differ _ _).symm
  have agree (name : Text) (uncovered : ¬ IsCovered env [] name) :
      Fields.get? file name = Fields.get? file' name := by
    have differ : name ≠ "lookahead".toList := by
      rintro rfl
      exact uncovered ⟨_, List.mem_cons_of_mem _ List.mem_cons_self, rfl, .inr ⟨['7'], rfl, by simp⟩⟩
    exact (passed differ _ _).trans (passed differ _ _).symm
  have loaded : load tree base env none [] = .ok config := by
    rw [of_layered merged layered]
    cbv
  refine ⟨read, read', layered, loaded, ?_⟩
  rw [← of_agree tree' base file' read' rfl agree, loaded]

end Config

end DocHarvest
