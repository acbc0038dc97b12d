import DocHarvest.Hierarchy
import DocHarvest.Proofs.Text.Parts
import DocHarvest.Proofs.Text.Units
import Mathlib.Data.List.Nodup
import Mathlib.Data.Prod.Lex

set_option autoImplicit false

namespace DocHarvest

namespace Hierarchy

def key (h : Hierarchy) : Nat × Text × Text := (h.depth, h.objectPath, h.functionName)

-- Deeper first, then by the units of the object path, then by those of the function name.
def rank (k : Nat × Text × Text) : ℕᵒᵈ ×ₗ List ℕ ×ₗ List ℕ :=
  toLex (OrderDual.toDual k.1, toLex (Text.units k.2.1, Text.units k.2.2))

theorem rank_le_iff {k l : Nat × Text × Text} : rank k ≤ rank l ↔
    l.1 < k.1 ∨ k.1 = l.1 ∧ (Text.units k.2.1 < Text.units l.2.1 ∨
      k.2.1 = l.2.1 ∧ Text.units k.2.2 ≤ Text.units l.2.2) := by
  have path : Text.units k.2.1 = Text.units l.2.1 ↔ k.2.1 = l.2.1 :=
    ⟨Text.units_injective, congrArg Text.units⟩
  simp [rank, Prod.Lex.toLex_le_toLex, path]

theorem rank_injective {k l : Nat × Text × Text} (same : rank k = rank l) : k = l := by
  simp only [rank, toLex_inj, Prod.mk.injEq, OrderDual.toDual_inj] at same
  have path := Text.units_injective same.2.1
  have function := Text.units_injective same.2.2
  exact Prod.ext same.1 (Prod.ext path function)

theorem le_iff_rank (a b : Hierarchy) : le a b = true ↔ rank a.key ≤ rank b.key := by
  rw [rank_le_iff]
  by_cases depth : a.depth = b.depth
  · by_cases path : a.objectPath = b.objectPath
    · simp [le, key, depth, path, Text.unitLe_iff]
    · have differ : Text.units a.objectPath ≠ Text.units b.objectPath :=
        fun same => path (Text.units_injective same)
      simp [le, key, depth, path, Text.unitLe_iff, le_iff_lt_or_eq, differ]
  · simp [le, key, depth]

theorem part_of_mem_segments {name part : Text} (member : part ∈ segments name) :
    part ≠ [] ∧ '.' ∉ part := by
  have found := List.mem_filter.mp member
  have no_dot : '.' ∉ part := fun inside => (Text.mem_splitOn found.1 inside).2 rfl
  exact ⟨by simpa using found.2, no_dot⟩

theorem key_ofName (primary : Option Text) (name : Text) : (ofName primary name).key =
    ((segments name).dropLast.length, ['.'].intercalate (segments name).dropLast,
      (segments name).getLast?.getD name) := by
  unfold ofName
  split
  · next empty => simp [key, List.getLast?_eq_none_iff.mp empty]
  · next last found => simp [key, found]

-- A path is cut at its dots in one way only, so it has one depth.
theorem depth_eq_of_objectPath_eq {name other : Text}
    (same : (ofName none name).objectPath = (ofName none other).objectPath) :
    (ofName none name).depth = (ofName none other).depth := by
  have own := key_ofName none name
  have own' := key_ofName none other
  simp only [key, Prod.mk.injEq] at own own'
  have parts (name : Text) : ∀ part ∈ (segments name).dropLast, part ≠ [] ∧ '.' ∉ part :=
    fun part member => part_of_mem_segments (List.dropLast_subset _ member)
  rw [own.2.1, own'.2.1] at same
  rw [own.1, own'.1, Text.intercalate_injective (parts name) (parts other) same]

end Hierarchy

namespace Record

open Hierarchy

def key (r : Record) : Nat × Text × Text := (ofName none r.name).key

def objectPath (r : Record) : Text := (ofName none r.name).objectPath

def before (a b : Record) : Bool := decide (rank a.key ≤ rank b.key)

theorem before_iff {a b : Record} : before a b = true ↔ rank a.key ≤ rank b.key := by
  simp [before]

theorem before_trans (a b c : Record) (first : before a b = true) (second : before b c = true) :
    before a c = true := by
  rw [before_iff] at *
  exact le_trans first second

theorem before_total (a b : Record) : (before a b || before b a) = true := by
  simpa [before_iff] using le_total (rank a.key) (rank b.key)

theorem sortHierarchically_eq (records : List Record) :
    sortHierarchically records = records.mergeSort before := by
  have listed (primary : Option Text) :
      ∀ a ∈ records.map fun r => (ofName primary r.name, r), a.1.key = a.2.key := by
    intro a member
    obtain ⟨r, _, rfl⟩ := List.mem_map.mp member
    exact (key_ofName primary r.name).trans (key_ofName none r.name).symm
  unfold sortHierarchically
  rw [List.map_mergeSort (s := before)]
  · simp [Function.comp_def]
  · intro a first b second
    rw [Bool.eq_iff_iff, before_iff, le_iff_rank, listed _ a first, listed _ b second]

section Sorted

variable (records : List Record)

theorem perm_sortHierarchically : (sortHierarchically records).Perm records := by
  rw [sortHierarchically_eq]
  exact List.mergeSort_perm records before

theorem sorted_sortHierarchically :
    (sortHierarchically records).Pairwise fun a b => rank a.key ≤ rank b.key := by
  rw [sortHierarchically_eq]
  simpa only [before_iff] using List.pairwise_mergeSort before_trans before_total records

variable {records}

theorem sortHierarchically_of_sorted
    (sorted : records.Pairwise fun a b => rank a.key ≤ rank b.key) :
    sortHierarchically records = records := by
  rw [sortHierarchically_eq]
  exact List.mergeSort_of_pairwise (by simpa only [before_iff] using sorted)

-- Records with one key are in order as they stand, so the sorted list holds them in that order.
theorem filter_sortHierarchically (k : Nat × Text × Text) :
    (sortHierarchically records).filter (·.key = k) = records.filter (·.key = k) := by
  have alike : (records.filter (·.key = k)).Pairwise fun a b => before a b = true := by
    apply List.pairwise_of_forall_mem_list
    intro a first b second
    simp only [List.mem_filter, decide_eq_true_eq] at first second
    rw [before_iff, first.2, second.2]
  have kept := List.sublist_mergeSort before_trans before_total alike List.filter_sublist
  have inside := kept.filter (·.key = k)
  simp only [← sortHierarchically_eq, List.filter_filter, Bool.and_self] at inside
  exact (inside.eq_of_length ((perm_sortHierarchically records).filter _).length_eq.symm).symm

theorem sortHierarchically_eq_of_perm (distinct : (records.map Record.key).Nodup)
    {others : List Record} (perm : others.Perm records) :
    sortHierarchically others = sortHierarchically records := by
  have same := (perm_sortHierarchically others).trans
    (perm.trans (perm_sortHierarchically records).symm)
  apply same.eq_of_pairwise _ (sorted_sortHierarchically others) (sorted_sortHierarchically records)
  intro a b first second ahead behind
  have equal : a.key = b.key := rank_injective (le_antisymm ahead behind)
  have left : a ∈ records := perm.subset ((perm_sortHierarchically others).subset first)
  have right : b ∈ records := (perm_sortHierarchically records).subset second
  exact List.inj_on_of_nodup_map distinct left right equal

-- A path between two equal ones has their depth, and so it is equal to them too.
theorem objectPath_between {a b c : Record} (first : rank a.key ≤ rank b.key)
    (second : rank b.key ≤ rank c.key) (same : a.objectPath = c.objectPath) :
    b.objectPath = a.objectPath := by
  have depth : (ofName none a.name).depth = (ofName none c.name).depth :=
    depth_eq_of_objectPath_eq same
  unfold objectPath at same ⊢
  simp only [rank_le_iff, Record.key, Hierarchy.key] at first second
  rcases first with shallower | ⟨level, first⟩
  · omega
  rcases second with shallower | ⟨_, second⟩
  · omega
  rcases first with below | ⟨equal, _⟩
  · rcases second with above | ⟨equal, _⟩
    · rw [same] at below
      exact absurd above (lt_asymm below)
    · rw [equal, same]
  · exact equal.symm

end Sorted

-- Sorting puts the records into the one order that their keys give, records with one key as they
-- stood; so it does nothing to a sorted list, and the order of the list it is given matters for
-- equal keys only. The records of one object stand together.
theorem sortHierarchically_is_stable_sort (records : List Record) :
    (sortHierarchically records).Perm records ∧
    (sortHierarchically records).Pairwise (fun a b => rank a.key ≤ rank b.key) ∧
    (∀ k, (sortHierarchically records).filter (·.key = k) = records.filter (·.key = k)) ∧
    sortHierarchically (sortHierarchically records) = sortHierarchically records ∧
    ((records.map Record.key).Nodup → ∀ others : List Record, others.Perm records →
      sortHierarchically others = sortHierarchically records) ∧
    ∀ front a between c back,
      sortHierarchically records = front ++ a :: between ++ c :: back →
      a.objectPath = c.objectPath → ∀ b ∈ between, b.objectPath = a.objectPath := by
  have sorted := sorted_sortHierarchically records
  refine ⟨perm_sortHierarchically records, sorted, filter_sortHierarchically,
    sortHierarchically_of_sorted sorted, fun distinct others =>
      sortHierarchically_eq_of_perm distinct, ?_⟩
  intro front a between c back split same b member
  rw [split, List.append_assoc, List.cons_append] at sorted
  have rest := (List.pairwise_append.mp sorted).2.1
  have behind := List.pairwise_cons.mp rest
  have ahead := (List.pairwise_append.mp behind.2).2.2
  exact objectPath_between (behind.1 b (by simp [member])) (ahead b member c (by simp)) same

theorem sortHierarchically_is_stable_sort_sample :
    let named (name : String) : Record := ⟨name.toList, [], ⟨[], []⟩, [], [], [], 0⟩
    let records := ["f", "M.a.h", "N.a.g", "M.a.f"].map named
    let others := [] ++ named "M.a.f" :: [named "N.a.g"] ++ named "M.a.h" :: [named "f"]
    ((records.map Record.key).Nodup ∧ others.Perm records ∧
      sortHierarchically others = sortHierarchically records) ∧
    sortHierarchically records = others ∧
    (named "N.a.g").objectPath = (named "M.a.f").objectPath := by
  intro named records others
  have laws := sortHierarchically_is_stable_sort records
  have distinct : (records.map Record.key).Nodup := by decide
  have perm : others.Perm records := by decide
  have compared : others.Pairwise fun a b => le (ofName none a.name) (ofName none b.name) = true := by
    decide
  have ordered : others.Pairwise fun a b => rank a.key ≤ rank b.key :=
    compared.imp fun holds => (le_iff_rank _ _).mp holds
  have same := laws.2.2.2.2.1 distinct others perm
  have sorted : sortHierarchically records = others :=
    same.symm.trans (sortHierarchically_of_sorted ordered)
  exact ⟨⟨distinct, perm, same⟩, sorted, laws.2.2.2.2.2 [] _ _ _ _ sorted rfl _ (by simp)⟩

end Record

end DocHarvest
