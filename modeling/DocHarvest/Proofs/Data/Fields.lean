import DocHarvest.Data.Value

set_option autoImplicit false

namespace DocHarvest.Fields

theorem get?_cons (k key : Text) (v : Value) (rest : Fields) :
    get? ((k, v) :: rest) key = if key = k then some v else get? rest key := by
  by_cases same : key = k
  · simp [get?, same]
  · have differ : (key == k) = false := by simpa using same
    simp [get?, List.lookup_cons, differ, same]

theorem get?_put (fields : Fields) (key other : Text) (v : Value) :
    get? (put key v fields) other =
      if other = key then some v else get? fields other := by
  induction fields with
  | nil => grind [put, get?]
  | cons field rest ih =>
    obtain ⟨k, w⟩ := field
    grind [put, get?]

theorem keys_put (fields : Fields) (key : Text) (v : Value) :
    keys (put key v fields) = if key ∈ keys fields then keys fields else keys fields ++ [key] := by
  induction fields with
  | nil => rfl
  | cons field rest ih =>
    obtain ⟨k, w⟩ := field
    grind [put, keys]

theorem get?_eq_none {fields : Fields} {key : Text} (absent : key ∉ keys fields) :
    get? fields key = none := by
  rw [get?, List.lookup_eq_none_iff]
  intro field member
  simpa using fun same : key = field.1 => absent (same ▸ List.mem_map_of_mem member)

theorem get?_eq_some_iff {fields : Fields} (distinct : (keys fields).Nodup) {key : Text} {v : Value} :
    get? fields key = some v ↔ (key, v) ∈ fields := by
  induction fields with
  | nil => simp [get?]
  | cons field rest ih =>
    obtain ⟨k, w⟩ := field
    have distinct := List.nodup_cons.mp distinct
    rw [get?_cons, List.mem_cons, ← ih distinct.2, Prod.mk.injEq]
    by_cases same : key = k
    · subst same
      have absent : get? rest key = none := get?_eq_none distinct.1
      simp [absent, eq_comm]
    · simp [same]

theorem get?_perm {fields others : Fields} (distinct : (keys fields).Nodup)
    (perm : others.Perm fields) (key : Text) : get? others key = get? fields key := by
  have distinct' : (keys others).Nodup := (perm.map Prod.fst).nodup_iff.mpr distinct
  apply Option.ext
  intro v
  rw [get?_eq_some_iff distinct', get?_eq_some_iff distinct, perm.mem_iff]

theorem get?_overlay {upper : Fields} (distinct : (keys upper).Nodup) (lower : Fields)
    (key : Text) : get? (overlay upper lower) key = (get? upper key).or (get? lower key) := by
  unfold overlay
  induction upper generalizing lower with
  | nil => rfl
  | cons field rest ih =>
    obtain ⟨k, v⟩ := field
    have absent : k ∉ keys rest := (List.nodup_cons.mp distinct).1
    rw [List.foldl_cons, ih (List.nodup_cons.mp distinct).2, get?_put, get?_cons]
    by_cases same : key = k <;> simp [same, get?_eq_none absent]

theorem filter_keys_overlay {upper : Fields} {p : Text → Bool}
    (passed : ∀ key ∈ keys upper, p key = false) (lower : Fields) :
    (keys (overlay upper lower)).filter p = (keys lower).filter p := by
  unfold overlay
  induction upper generalizing lower with
  | nil => rfl
  | cons field rest ih =>
    obtain ⟨k, v⟩ := field
    have first : p k = false := passed k (by simp [keys])
    rw [List.foldl_cons, ih fun key member => passed key (List.mem_cons_of_mem k member), keys_put]
    split <;> simp [first]

end DocHarvest.Fields
