import DocHarvest.Proofs.Hierarchy.Order
import Mathlib.Data.List.TakeWhile

set_option autoImplicit false

namespace DocHarvest.Hierarchy

-- What stands between the dots of a path, where anything does.
inductive Segmented : Text → List Text → Prop
  | nil : Segmented [] []
  | dot {path : Text} {parts : List Text} (rest : Segmented path parts) :
      Segmented ('.' :: path) parts
  | last {part : Text} (filled : part ≠ []) (undotted : '.' ∉ part) : Segmented part [part]
  | next {part path : Text} {parts : List Text} (filled : part ≠ []) (undotted : '.' ∉ part)
      (rest : Segmented path parts) : Segmented (part ++ '.' :: path) (part :: parts)

-- What stands before the first dot of a name is its module and none of its segments.
inductive NameSegments : Text → List Text → Prop
  | bare {name : Text} {parts : List Text} (undotted : '.' ∉ name) (whole : Segmented name parts) :
      NameSegments name parts
  | qualified {owner path : Text} {parts : List Text} (undotted : '.' ∉ owner)
      (rest : Segmented path parts) : NameSegments (owner ++ '.' :: path) parts

def pathParts (path : Text) : List Text := (path.splitOn '.').filter (· != [])

theorem pathParts_append (a b : Text) :
    pathParts (a ++ '.' :: b) = pathParts a ++ pathParts b := by
  simp only [pathParts, Text.splitOn_append, List.filter_append]

theorem pathParts_of_undotted {part : Text} (filled : part ≠ []) (undotted : '.' ∉ part) :
    pathParts part = [part] := by
  simp [pathParts, List.splitOn_eq_singleton undotted, filled]

theorem Segmented.pathParts_eq {path : Text} {parts : List Text} (cut : Segmented path parts) :
    pathParts path = parts := by
  induction cut with
  | nil => rfl
  | @dot path parts rest ih =>
    have front : pathParts ([] ++ '.' :: path) = pathParts path := pathParts_append [] path
    rw [← ih, ← front, List.nil_append]
  | last filled undotted => exact pathParts_of_undotted filled undotted
  | next filled undotted rest ih =>
    rw [pathParts_append, pathParts_of_undotted filled undotted, ih, List.singleton_append]

theorem exists_segmented (path : Text) : ∃ parts, Segmented path parts := by
  by_cases dotted : '.' ∈ path
  · obtain ⟨part, rest, split, undotted⟩ := List.eq_append_cons_of_mem dotted
    have shorter : rest.length < path.length := by
      simp [split]
      omega
    obtain ⟨parts, cut⟩ := exists_segmented rest
    rw [split]
    by_cases filled : part = []
    · exact ⟨parts, by simpa [filled] using cut.dot⟩
    · exact ⟨part :: parts, .next filled undotted cut⟩
  · by_cases filled : path = []
    · exact ⟨[], filled ▸ .nil⟩
    · exact ⟨[path], .last filled dotted⟩
termination_by path.length

theorem segmented_iff {path : Text} {parts : List Text} :
    Segmented path parts ↔ pathParts path = parts := by
  constructor
  · exact Segmented.pathParts_eq
  · intro same
    obtain ⟨others, cut⟩ := exists_segmented path
    rwa [← same, cut.pathParts_eq]

instance (path : Text) (parts : List Text) : Decidable (Segmented path parts) :=
  decidable_of_iff _ segmented_iff.symm

theorem segments_of_bare {name : Text} (undotted : '.' ∉ name) :
    segments name = pathParts name := by
  simp [segments, pathParts, undotted]

theorem segments_of_qualified {owner : Text} (undotted : '.' ∉ owner) (path : Text) :
    segments (owner ++ '.' :: path) = pathParts path := by
  simp [segments, pathParts, Text.dropWhile_before undotted]

theorem nameSegments_iff {name : Text} {parts : List Text} :
    NameSegments name parts ↔ segments name = parts := by
  constructor
  · intro cut
    cases cut with
    | bare undotted whole => rw [segments_of_bare undotted, whole.pathParts_eq]
    | qualified undotted rest => rw [segments_of_qualified undotted, rest.pathParts_eq]
  · intro same
    by_cases dotted : '.' ∈ name
    · obtain ⟨owner, path, rfl, undotted⟩ := List.eq_append_cons_of_mem dotted
      rw [segments_of_qualified undotted] at same
      exact .qualified undotted (segmented_iff.mpr same)
    · rw [segments_of_bare dotted] at same
      exact .bare dotted (segmented_iff.mpr same)

instance (name : Text) (parts : List Text) : Decidable (NameSegments name parts) :=
  decidable_of_iff _ nameSegments_iff.symm

theorem segmented_intercalate {parts : List Text} (whole : ∀ part ∈ parts, part ≠ [] ∧ '.' ∉ part) :
    Segmented (['.'].intercalate parts) parts := by
  induction parts with
  | nil => exact .nil
  | cons part parts ih =>
    have here := whole part (by simp)
    cases parts with
    | nil => simpa using Segmented.last here.1 here.2
    | cons next parts =>
      have later := ih fun other member => whole other (by simp [member])
      simpa [List.intercalate_cons_cons] using Segmented.next here.1 here.2 later

section Below

variable {primary path : Text} {parts : List Text}

theorem takeWhile_intercalate {part : Text} (undotted : '.' ∉ part) (parts : List Text) :
    (['.'].intercalate (part :: parts)).takeWhile (· != '.') = part := by
  cases parts with
  | nil =>
    rw [List.intercalate_singleton, List.takeWhile_eq_self_iff]
    exact Text.bne_of_not_mem undotted
  | cons next parts =>
    rw [List.intercalate_cons_cons, List.append_assoc]
    exact Text.takeWhile_before undotted _

theorem below_self : below primary primary = [] := by
  simp [below]

theorem below_append (filled : primary ≠ []) (rest : Text) :
    below primary (primary ++ '.' :: rest) = rest := by
  have found : (primary ++ ['.']).isPrefixOf? (primary ++ '.' :: rest) = some rest :=
    List.isPrefixOf?_eq_some_iff_append_eq.mpr (by simp)
  simp [below, filled, found]

-- Neither comparison succeeds, since each would find the primary object before the first dot.
theorem below_of_other (undotted : '.' ∉ primary)
    (other : path.takeWhile (· != '.') ≠ primary) : below primary path = path := by
  have differs : path ≠ primary := by
    rintro rfl
    exact other (List.takeWhile_eq_self_iff.mpr (Text.bne_of_not_mem undotted))
  have missing : (primary ++ ['.']).isPrefixOf? path = none := by
    rw [Option.eq_none_iff_forall_ne_some]
    intro rest found
    rw [List.isPrefixOf?_eq_some_iff_append_eq] at found
    apply other
    rw [← found, List.append_assoc]
    exact Text.takeWhile_before undotted rest
  simp [below, differs, missing]

theorem below_intercalate_of_other (filled : primary ≠ []) (undotted : '.' ∉ primary)
    (whole : ∀ part ∈ parts, '.' ∉ part) (other : parts.head? ≠ some primary) :
    below primary (['.'].intercalate parts) = ['.'].intercalate parts := by
  apply below_of_other undotted
  cases parts with
  | nil => simpa using filled.symm
  | cons part parts =>
    rw [takeWhile_intercalate (whole part (by simp))]
    simpa using other

theorem below_intercalate_of_primary (filled : primary ≠ []) (parts : List Text) :
    below primary (['.'].intercalate (primary :: parts)) = ['.'].intercalate parts := by
  cases parts with
  | nil => simp [below_self]
  | cons next parts =>
    have rest := below_append filled (['.'].intercalate (next :: parts))
    simpa [List.intercalate_cons_cons] using rest

theorem below_ne_iff (filled : primary ≠ []) (undotted : '.' ∉ primary)
    (whole : ∀ part ∈ parts, part ≠ [] ∧ '.' ∉ part) :
    below primary (['.'].intercalate parts) ≠ ['.'].intercalate parts ↔
      parts.head? = some primary := by
  constructor
  · intro shorter
    by_contra other
    have plain : ∀ part ∈ parts, '.' ∉ part := fun part member => (whole part member).2
    exact shorter (below_intercalate_of_other filled undotted plain other)
  · intro first
    obtain ⟨inner, rfl⟩ := List.head?_eq_some_iff.mp first
    rw [below_intercalate_of_primary filled]
    intro same
    have equal := Text.intercalate_injective (fun p member => whole p (by simp [member])) whole same
    simpa using congrArg List.length equal

end Below

theorem ofName_of_nil {name : Text} (cut : segments name = []) (primary : Option Text) :
    ofName primary name = ⟨0, [], [], name⟩ := by
  simp [ofName, cut]

theorem ofName_of_concat {name last : Text} {objects : List Text}
    (cut : segments name = objects ++ [last]) (primary : Option Text) :
    ofName primary name = ⟨objects.length, ['.'].intercalate objects,
      below (primary.getD []) (['.'].intercalate objects), last⟩ := by
  simp [ofName, cut]

-- A name is taken apart along its segments: all but the last are those of its object path, and the
-- primary object counts only where it is the first of them, from which the sub path goes on.
theorem ofName_respects_segments (name : Text) {primary : Text} (filled : primary ≠ [])
    (undotted : '.' ∉ primary) :
    (∃! segs, NameSegments name segs) ∧ ∀ segs, NameSegments name segs →
      let h := ofName (some primary) name
      (segs = [] → h = ⟨0, [], [], name⟩) ∧
      (segs ≠ [] → h.depth = segs.length - 1 ∧ ∃ objects, Segmented h.objectPath objects ∧
        objects ++ [h.functionName] = segs ∧
        (h.subPath ≠ h.objectPath ↔ objects.head? = some primary) ∧
        (h.subPath ≠ h.objectPath → ∃ inner, Segmented h.subPath inner ∧
          primary :: inner = objects)) := by
  constructor
  · exact ⟨segments name, nameSegments_iff.mpr rfl, fun other cut => (nameSegments_iff.mp cut).symm⟩
  intro segs cut h
  rw [nameSegments_iff] at cut
  have parts : ∀ part ∈ segs, part ≠ [] ∧ '.' ∉ part := fun part member =>
    part_of_mem_segments (cut ▸ member)
  constructor
  · rintro rfl
    exact ofName_of_nil cut (some primary)
  · intro some_part
    obtain ⟨objects, last, rfl⟩ := (List.eq_nil_or_concat' segs).resolve_left some_part
    have whole : ∀ part ∈ objects, part ≠ [] ∧ '.' ∉ part := fun part member =>
      parts part (by simp [member])
    have shape := ofName_of_concat cut (some primary)
    have shorter := below_ne_iff filled undotted whole
    simp only [h, shape, Option.getD_some]
    refine ⟨by simp, objects, segmented_intercalate whole, rfl, shorter, ?_⟩
    intro differs
    obtain ⟨inner, rfl⟩ := List.head?_eq_some_iff.mp (shorter.mp differs)
    rw [below_intercalate_of_primary filled]
    exact ⟨inner, segmented_intercalate fun part member => whole part (by simp [member]), rfl⟩

-- Dots that part nothing make no segments, and a longer segment is not the primary object.
theorem ofName_respects_segments_sample :
    let primary := "Array".toList
    let name := ".Array..ops.add.".toList
    let longer := "M.Arrays.add".toList
    let h := ofName (some primary) name
    let other := ofName (some primary) longer
    (primary ≠ [] ∧ '.' ∉ primary) ∧
      NameSegments name (["Array", "ops", "add"].map String.toList) ∧ h.depth = 2 ∧
      Segmented h.objectPath (["Array", "ops"].map String.toList) ∧
      Segmented h.subPath ["ops".toList] ∧
      NameSegments longer (["Arrays", "add"].map String.toList) ∧
      other.subPath = other.objectPath := by
  intro primary name longer h other
  have filled : primary ≠ [] := by decide
  have undotted : '.' ∉ primary := by decide
  have cut : NameSegments name (["Array", "ops", "add"].map String.toList) := by decide
  have cut' : NameSegments longer (["Arrays", "add"].map String.toList) := by decide
  have laws := (ofName_respects_segments name filled undotted).2 _ cut
  have laws' := (ofName_respects_segments longer filled undotted).2 _ cut'
  obtain ⟨depth, objects, path, split, shorter, goes_on⟩ := laws.2 (by decide)
  obtain ⟨_, objects', _, split', shorter', _⟩ := laws'.2 (by decide)
  obtain rfl : objects = ["Array", "ops"].map String.toList := (List.append_inj' split rfl).1
  obtain rfl : objects' = ["Arrays".toList] := (List.append_inj' split' rfl).1
  obtain ⟨inner, sub, same⟩ := goes_on (shorter.mpr rfl)
  obtain rfl : inner = ["ops".toList] := List.tail_eq_of_cons_eq same
  refine ⟨⟨filled, undotted⟩, cut, depth, path, sub, cut', ?_⟩
  by_contra differs
  exact absurd (shorter'.mp differs) (by decide)

end DocHarvest.Hierarchy
