import DocHarvest.Hierarchy
import DocHarvest.Proofs.Text.Parts
import Mathlib.Data.List.Induction

set_option autoImplicit false

namespace DocHarvest.Hierarchy

-- The first dot of the name follows this text, which is not empty.
def Owns (o name : Text) : Prop := o ≠ [] ∧ '.' ∉ o ∧ o ++ ['.'] <+: name

instance (o name : Text) : Decidable (Owns o name) :=
  inferInstanceAs (Decidable (o ≠ [] ∧ '.' ∉ o ∧ o ++ ['.'] <+: name))

def count (names : List Text) (o : Text) : Nat := names.countP fun name => Owns o name

def firstAt (names : List Text) (o : Text) : Nat := names.findIdx fun name => Owns o name

structure IsPrimary (names : List Text) (o : Text) : Prop where
  met : 1 ≤ count names o
  enough : 3 * names.length / 10 ≤ count names o
  most : ∀ other, count names other ≤ count names o
  first : ∀ other, other ≠ o → count names other = count names o →
    firstAt names o < firstAt names other

theorem IsPrimary.unique {names : List Text} {o other : Text} (one : IsPrimary names o)
    (two : IsPrimary names other) : o = other := by
  by_contra differ
  have same : count names o = count names other :=
    Nat.le_antisymm (two.most o) (one.most other)
  have before := one.first other (Ne.symm differ) same.symm
  have after := two.first o differ same
  omega

theorem objectOf?_eq_some_iff {o name : Text} : objectOf? name = some o ↔ Owns o name := by
  constructor
  · intro found
    simp only [objectOf?, Option.ite_none_right_eq_some, Option.some.injEq, Bool.and_eq_true,
      bne_iff_ne, List.contains_iff_mem] at found
    obtain ⟨front, rest, rfl, no_dot⟩ := List.eq_append_cons_of_mem found.1.2
    rw [Text.takeWhile_before no_dot] at found
    rw [← found.2]
    exact ⟨found.1.1, no_dot, by simp⟩
  · intro owns
    rcases owns with ⟨filled, no_dot, rest, split⟩
    have whole : name = o ++ '.' :: rest := by simpa using split.symm
    simp [objectOf?, whole, Text.takeWhile_before no_dot, filled]

theorem Owns.unique {o other name : Text} (one : Owns o name) (two : Owns other name) :
    o = other :=
  Option.some.inj ((objectOf?_eq_some_iff.mpr one).symm.trans (objectOf?_eq_some_iff.mpr two))

section Counting

variable {names objects : List Text} {name o : Text}

theorem count_concat (names : List Text) (name o : Text) :
    count (names ++ [name]) o = count names o + if Owns o name then 1 else 0 := by
  simp [count, List.countP_append, List.countP_singleton]

theorem firstAt_lt_length (met : 1 ≤ count names o) : firstAt names o < names.length :=
  List.findIdx_lt_length_of_exists (List.countP_pos_iff.mp met)

theorem firstAt_concat (met : 1 ≤ count names o) (name : Text) :
    firstAt (names ++ [name]) o = firstAt names o := by
  have inside := firstAt_lt_length met
  unfold firstAt at inside ⊢
  rw [List.findIdx_append, if_pos inside]

theorem firstAt_concat_of_new (new : count names o = 0) (owns : Owns o name) :
    firstAt (names ++ [name]) o = names.length := by
  have absent : ∀ other ∈ names, ¬ Owns o other := by
    simpa [count, List.countP_eq_zero] using new
  have outside : names.findIdx (fun name => Owns o name) = names.length := by
    rw [List.findIdx_eq_length]
    simpa using absent
  simp [firstAt, List.findIdx_append, outside, owns]

structure Met (names objects : List Text) : Prop where
  mem_iff : ∀ o, o ∈ objects ↔ 1 ≤ count names o
  ordered : objects.Pairwise fun a b => firstAt names a < firstAt names b

theorem Met.nodup (met : Met names objects) : objects.Nodup :=
  met.ordered.imp fun before => by
    rintro rfl
    omega

theorem Met.ordered_concat (met : Met names objects) (name : Text) :
    objects.Pairwise fun a b => firstAt (names ++ [name]) a < firstAt (names ++ [name]) b := by
  apply met.ordered.imp_of_mem
  intro a b first second before
  rwa [firstAt_concat ((met.mem_iff a).mp first), firstAt_concat ((met.mem_iff b).mp second)]

theorem Met.concat_known (met : Met names objects)
    (known : ∀ o, Owns o name → o ∈ objects) : Met (names ++ [name]) objects where
  mem_iff o := by
    rw [count_concat, met.mem_iff]
    constructor
    · omega
    · intro counted
      by_cases owns : Owns o name
      · exact (met.mem_iff o).mp (known o owns)
      · simpa [owns] using counted
  ordered := met.ordered_concat name

theorem Met.concat_new (met : Met names objects) (owns : Owns o name) (new : o ∉ objects) :
    Met (names ++ [name]) (objects ++ [o]) where
  mem_iff other := by
    rw [count_concat, List.mem_append, met.mem_iff, List.mem_singleton]
    by_cases same : other = o
    · simp [same, owns]
    · have differ : ¬ Owns other name := fun own => same (own.unique owns)
      simp [same, differ]
  ordered := by
    have none_before : count names o = 0 := by
      have unmet := mt (met.mem_iff o).mpr new
      omega
    rw [List.pairwise_append]
    refine ⟨met.ordered_concat name, List.pairwise_singleton _ _, ?_⟩
    intro a listed b last
    have counted := (met.mem_iff a).mp listed
    rw [List.mem_singleton.mp last, firstAt_concat counted, firstAt_concat_of_new none_before owns]
    exact firstAt_lt_length counted

-- How the counts of listed objects change when one object owns one name more.
theorem bump_map {f g : Text → Nat} (distinct : objects.Nodup) (one : g o = f o + 1)
    (others : ∀ p, p ≠ o → g p = f p) (new : o ∉ objects → f o = 0) :
    bump o (objects.map fun p => (p, f p)) =
      (if o ∈ objects then objects else objects ++ [o]).map fun p => (p, g p) := by
  induction objects with
  | nil => simp [bump, one, new]
  | cons p objects ih =>
    have distinct := List.nodup_cons.mp distinct
    by_cases same : p = o
    · have rest : objects.map (fun p => (p, f p)) = objects.map (fun p => (p, g p)) := by
        apply List.map_congr_left
        intro q listed
        have differ : q ≠ o := fun equal => distinct.1 (same ▸ equal ▸ listed)
        rw [others q differ]
      simp [bump, same, one, rest]
    · have later := ih distinct.2 fun absent => new (by simp [absent, Ne.symm same])
      by_cases listed : o ∈ objects
      · simpa [bump, same, others p same, listed] using later
      · simpa [bump, same, others p same, listed, Ne.symm same] using later

def tallied (names objects : List Text) : List (Text × Nat) :=
  objects.map fun o => (o, count names o)

theorem countObjects_concat (names : List Text) (name : Text) :
    countObjects (names ++ [name]) =
      match objectOf? name with
      | some o => bump o (countObjects names)
      | none => countObjects names :=
  List.foldl_append

theorem exists_met (names : List Text) :
    ∃ objects, Met names objects ∧ countObjects names = tallied names objects := by
  induction names using List.reverseRecOn with
  | nil =>
    refine ⟨[], ⟨?_, List.Pairwise.nil⟩, rfl⟩
    simp [count]
  | append_singleton names name ih =>
    obtain ⟨objects, met, counted⟩ := ih
    rw [countObjects_concat]
    cases found : objectOf? name with
    | none =>
      have unowned (o : Text) : ¬ Owns o name := by
        rw [← objectOf?_eq_some_iff, found]
        simp
      refine ⟨objects, met.concat_known fun o owns => absurd owns (unowned o), ?_⟩
      simp [counted, tallied, count_concat, unowned]
    | some o =>
      have owns := objectOf?_eq_some_iff.mp found
      have bumped : bump o (tallied names objects) = tallied (names ++ [name])
          (if o ∈ objects then objects else objects ++ [o]) := by
        apply bump_map met.nodup
        · simp [count_concat, owns]
        · intro p differ
          have unowned : ¬ Owns p name := fun own => differ (own.unique owns)
          simp [count_concat, unowned]
        · intro new
          have unmet := mt (met.mem_iff o).mpr new
          omega
      refine ⟨_, ?_, by simpa [counted] using bumped⟩
      by_cases known : o ∈ objects
      · rw [if_pos known]
        exact met.concat_known fun other own => own.unique owns ▸ known
      · rw [if_neg known]
        exact met.concat_new owns known

end Counting

section Leading

variable {least : Nat} {entries : List (Text × Nat)} {best : Option (Text × Nat)}

-- The entry that leads is the first of those with the highest count, if this is high enough.
inductive Leads (least : Nat) (entries : List (Text × Nat)) : Option (Text × Nat) → Prop
  | nobody (low : ∀ e ∈ entries, e.2 < 1 ∨ e.2 < least) : Leads least entries none
  | leader {before after : List (Text × Nat)} {e : Text × Nat}
      (split : entries = before ++ e :: after) (met : 1 ≤ e.2) (enough : least ≤ e.2)
      (ahead : ∀ d ∈ before, d.2 < e.2) (most : ∀ d ∈ after, d.2 ≤ e.2) :
      Leads least entries (some e)

theorem Leads.step (leads : Leads least entries best) (entry : Text × Nat) :
    Leads least (entries ++ [entry]) (better least best entry) := by
  cases leads with
  | nobody low =>
    by_cases high : 1 ≤ entry.2 ∧ least ≤ entry.2
    · have ahead : ∀ d ∈ entries, d.2 < entry.2 := by
        intro d listed
        have below := low d listed
        omega
      have taken : better least none entry = some entry := by
        simp [better, high.2, show 0 < entry.2 by omega]
      rw [taken]
      exact .leader rfl high.1 high.2 ahead (by simp)
    · have kept : better least none entry = none := by
        simp [better]
        omega
      rw [kept]
      apply Leads.nobody
      simp only [List.forall_mem_append, List.forall_mem_singleton]
      exact ⟨low, by omega⟩
  | leader split met enough ahead most =>
    next before after e =>
    by_cases higher : e.2 < entry.2
    · have passed : ∀ d ∈ entries, d.2 < entry.2 := by
        rw [split]
        intro d listed
        rcases List.mem_append.mp listed with first | rest
        · have := ahead d first
          omega
        · rcases List.mem_cons.mp rest with rfl | later
          · exact higher
          · have := most d later
            omega
      have taken : better least (some e) entry = some entry := by
        simp [better, higher]
        omega
      rw [taken]
      exact .leader rfl (by omega) (by omega) passed (by simp)
    · have kept : better least (some e) entry = some e := by
        simp [better]
        omega
      have longer : entries ++ [entry] = before ++ e :: (after ++ [entry]) := by simp [split]
      rw [kept]
      apply Leads.leader longer met enough ahead
      simp only [List.forall_mem_append, List.forall_mem_singleton]
      exact ⟨most, by omega⟩

theorem leads_foldl (least : Nat) (entries : List (Text × Nat)) :
    Leads least entries (entries.foldl (better least) none) := by
  induction entries using List.reverseRecOn with
  | nil => exact .nobody (by simp)
  | append_singleton entries entry ih =>
    rw [List.foldl_append]
    exact ih.step entry

end Leading

section Primary

variable {names objects : List Text}

theorem Met.mem_tallied (met : Met names objects) {o : Text} (counted : 1 ≤ count names o) :
    (o, count names o) ∈ tallied names objects :=
  List.mem_map_of_mem ((met.mem_iff o).mpr counted)

theorem Met.isPrimary_of_leads (met : Met names objects) {e : Text × Nat}
    (leads : Leads (3 * names.length / 10) (tallied names objects) (some e)) :
    IsPrimary names e.1 := by
  cases leads with
  | leader split counted enough ahead most =>
    next before after =>
    have own : e.2 = count names e.1 := by
      have listed : e ∈ tallied names objects := by simp [split]
      obtain ⟨o, _, rfl⟩ := List.mem_map.mp listed
      rfl
    rw [own] at counted enough ahead most
    have place {o : Text} (listed : 1 ≤ count names o) :
        (o, count names o) ∈ before ∨ (o, count names o) = e ∨ (o, count names o) ∈ after := by
      simpa [split] using met.mem_tallied listed
    have ordered : (tallied names objects).Pairwise
        fun a b => firstAt names a.1 < firstAt names b.1 := List.pairwise_map.mpr met.ordered
    rw [split, List.pairwise_append, List.pairwise_cons] at ordered
    refine ⟨counted, enough, ?_, ?_⟩
    · intro other
      by_cases listed : 1 ≤ count names other
      · rcases place listed with first | rfl | later
        · exact Nat.le_of_lt (ahead _ first)
        · exact Nat.le_refl _
        · exact most _ later
      · omega
    · intro other differ same
      rcases place (same ▸ counted) with first | rfl | later
      · have fewer := ahead _ first
        omega
      · exact absurd rfl differ
      · exact ordered.2.1.1 _ later

theorem primary?_eq_some_iff (names : List Text) (o : Text) :
    primary? names = some o ↔ IsPrimary names o := by
  obtain ⟨objects, met, counted⟩ := exists_met names
  have leads := leads_foldl (3 * names.length / 10) (tallied names objects)
  have answer : primary? names =
      ((tallied names objects).foldl (better (3 * names.length / 10)) none).map Prod.fst := by
    rw [primary?, counted, leastTenths, Nat.mul_comm]
  rw [answer]
  generalize (tallied names objects).foldl (better (3 * names.length / 10)) none = best at leads
  cases best with
  | none =>
    constructor
    · intro found
      cases found
    · intro primary
      cases leads with
      | nobody low =>
        have below := low _ (met.mem_tallied primary.met)
        have met := primary.met
        have enough := primary.enough
        omega
  | some e =>
    have primary := met.isPrimary_of_leads leads
    constructor
    · intro found
      exact Option.some.inj found ▸ primary
    · intro other
      rw [Option.map_some, primary.unique other]

end Primary

-- The primary object is the one that owns the most names, the first of these in the list, and there
-- is none if that is no name at all or fewer than three tenths of the names.
theorem primary?_iff_first_with_most_names (names : List Text) :
    (∀ o, primary? names = some o ↔ IsPrimary names o) ∧
      (primary? names = none ↔ ∀ o, ¬ IsPrimary names o) := by
  have found := primary?_eq_some_iff names
  refine ⟨found, ?_⟩
  simp only [← found, Option.eq_none_iff_forall_ne_some]

-- The first object owns too few of the ten names, and the two others own as many as each other.
example : primary? (["a.f", "b.f", "c.f", ".f", "f", "c.g", "b.g", "a.g", "b.h", "c.h"].map
    String.toList) = some ['b'] := by decide

end DocHarvest.Hierarchy
