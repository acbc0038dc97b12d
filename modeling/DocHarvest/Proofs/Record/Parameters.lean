import DocHarvest.Record
import Mathlib.Data.List.Forall2
import Mathlib.Logic.Relation

set_option autoImplicit false

namespace DocHarvest

inductive ParamEntry (s : Settings) (params : List Param) (name : Text) : Param → Prop
  | documented {before after : List Param} {p : Param} (split : params = before ++ p :: after)
      (named : p.name = name) (first : ∀ q ∈ before, q.name ≠ name) : ParamEntry s params name p
  | missing (absent : ∀ q ∈ params, q.name ≠ name) :
      ParamEntry s params name ⟨name, s.defaultParamType, [], false⟩

-- Changes of the documented parameters that make no difference to a definition with these names.
inductive SpareChange (names : List Text) : List Param → List Param → Prop
  | undeclared (before after : List Param) {p : Param} (foreign : p.name ∉ names) :
      SpareChange names (before ++ after) (before ++ p :: after)
  | repeated (before after : List Param) {p : Param} (earlier : ∃ q ∈ before, q.name = p.name) :
      SpareChange names (before ++ after) (before ++ p :: after)
  -- Parameters of different names change places, and those of one name keep their order.
  | moved {params others : List Param} (same : ∀ name, params.filter (·.name == name) =
      others.filter (·.name == name)) : SpareChange names params others

theorem ParamEntry.name_eq {s : Settings} {params : List Param} {name : Text} {p : Param}
    (entry : ParamEntry s params name p) : p.name = name := by
  cases entry with
  | documented _ named _ => exact named
  | missing _ => rfl

theorem names_of_entries {s : Settings} {params entries : List Param} {names : List Text}
    (listed : List.Forall₂ (ParamEntry s params) names entries) : entries.map Param.name = names := by
  induction listed with
  | nil => rfl
  | cons entry _ ih => rw [List.map_cons, entry.name_eq, ih]

namespace Block

variable (s : Settings) (b : Block)

theorem entry_param? (name : Text) : ParamEntry s b.params name
    ((b.param? name).getD ⟨name, s.defaultParamType, [], false⟩) := by
  cases found : b.param? name with
  | none =>
    have absent : ∀ q ∈ b.params, q.name ≠ name := by
      simpa [param?, List.find?_eq_none] using found
    exact .missing absent
  | some p =>
    have hit := List.find?_eq_some_iff_append.mp found
    rcases hit with ⟨named, before, after, split, first⟩
    exact .documented split (by simpa using named) (by simpa using first)

theorem entries_paramsFor (names : List Text) :
    List.Forall₂ (ParamEntry s b.params) names (b.paramsFor s names) := by
  unfold paramsFor
  induction names with
  | nil => exact .nil
  | cons name names ih => exact .cons (entry_param? s b name) ih

end Block

section Changes

variable {names : List Text} {params others : List Param}

theorem SpareChange.find?_eq (change : SpareChange names params others) {name : Text}
    (declared : name ∈ names) :
    params.find? (·.name == name) = others.find? (·.name == name) := by
  cases change with
  | undeclared before after foreign =>
    next p =>
    have differ : p.name ≠ name := fun same => foreign (same ▸ declared)
    simp [List.find?_append, differ]
  | repeated before after earlier =>
    next p =>
    by_cases same : p.name = name
    · -- The search ends before it comes to the repeated parameter.
      have found : (before.find? (·.name == name)).isSome = true := by
        simpa [List.find?_isSome, same] using earlier
      simp [List.find?_append, Option.or_of_isSome found]
    · simp [List.find?_append, same]
  | moved same => rw [← List.head?_filter, same, List.head?_filter]

theorem find?_eq_of_changes (changes : Relation.EqvGen (SpareChange names) params others)
    {name : Text} (declared : name ∈ names) :
    params.find? (·.name == name) = others.find? (·.name == name) := by
  induction changes with
  | rel _ _ change => exact change.find?_eq declared
  | refl _ => rfl
  | symm _ _ _ ih => exact ih.symm
  | trans _ _ _ _ _ first second => exact first.trans second

theorem Block.paramsFor_eq_of_changes (s : Settings) (b : Block)
    (changes : Relation.EqvGen (SpareChange names) b.params params) :
    { b with params }.paramsFor s names = b.paramsFor s names := by
  apply List.map_congr_left
  intro name declared
  simp only [Block.param?, find?_eq_of_changes changes declared]

end Changes

-- The definition alone decides which parameters a record lists. What it takes from the comments is
-- the first parameter of each name, so nothing that is done to the others makes a difference.
theorem params_follow_definition (s : Settings) (sig : Signature) (b : Block) :
    (b.paramsFor s sig.params).map Param.name = sig.params ∧
    List.Forall₂ (ParamEntry s b.params) sig.params (b.paramsFor s sig.params) ∧
    ∀ params, Relation.EqvGen (SpareChange sig.params) b.params params →
      { b with params }.paramsFor s sig.params = b.paramsFor s sig.params ∧
        Record.ofParts s sig { b with params } = Record.ofParts s sig b := by
  have entries := Block.entries_paramsFor s b sig.params
  refine ⟨names_of_entries entries, entries, ?_⟩
  intro params changes
  have unchanged := Block.paramsFor_eq_of_changes s b changes
  constructor
  · exact unchanged
  · simp only [Record.ofParts, unchanged]

-- A name that is declared twice, a parameter that is documented twice, and one that is not declared.
theorem params_follow_definition_sample :
    let documented (name type : String) : Param := ⟨name.toList, type.toList, [], false⟩
    let sig : Signature := ⟨['f'], ["x", "y", "w", "x"].map String.toList, 3⟩
    let b : Block := { Block.empty Settings.default with params :=
      [documented "z" "map", documented "y" "list", documented "x" "number", documented "x" "text"] }
    let fewer := [documented "x" "number", documented "y" "list"]
    Relation.EqvGen (SpareChange sig.params) b.params fewer ∧
      b.paramsFor Settings.default sig.params = [documented "x" "number", documented "y" "list",
        documented "w" "any", documented "x" "number"] ∧
      { b with params := fewer }.paramsFor Settings.default sig.params =
        b.paramsFor Settings.default sig.params := by
  intro documented sig b fewer
  let swapped := [documented "y" "list", documented "x" "number"]
  have without : SpareChange sig.params (swapped ++ [documented "x" "text"]) b.params :=
    .undeclared [] _ (by decide)
  have once : SpareChange sig.params swapped (swapped ++ [documented "x" "text"]) :=
    .repeated swapped [] ⟨documented "x" "number", by simp [swapped], rfl⟩
  have moved : SpareChange sig.params fewer swapped := by
    apply SpareChange.moved
    intro name
    by_cases first : "x".toList = name
    · subst first
      rfl
    · have other : ((documented "x" "number").name == name) = false :=
        beq_false_of_ne first
      simp only [fewer, swapped, List.filter_cons, other]
      rfl
  have changes : Relation.EqvGen (SpareChange sig.params) b.params fewer :=
    .symm _ _ (.trans _ _ _ (.trans _ _ _ (.rel _ _ moved) (.rel _ _ once)) (.rel _ _ without))
  have follows := params_follow_definition Settings.default sig b
  exact ⟨changes, by decide, (follows.2.2 fewer changes).1⟩

end DocHarvest
