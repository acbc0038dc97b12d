import DocHarvest.Document
import Mathlib.Data.List.Infix

set_option autoImplicit false

namespace DocHarvest

namespace Json

def escaped : List Char := '"' :: '\\' :: (List.range 0x20).map Char.ofNat

theorem escape_of_not_mem {c : Char} (plain : c ∉ escaped) : escape c = [c] := by
  have code (n : Nat) (low : n < 0x20) : c.toNat ≠ n := by
    rintro rfl
    exact plain (by simpa [escaped] using .inr (.inr ⟨c.toNat, low, by simp⟩))
  have differ {d : Char} (member : d ∈ escaped) : c ≠ d := by
    rintro rfl
    exact plain member
  have high : ¬ c.toNat < 0x20 := fun low => code _ low rfl
  simp [escape, high, code 8 (by decide), code 12 (by decide), differ (d := '"') (by decide),
    differ (d := '\\') (by decide), differ (d := '\n') (by decide), differ (d := '\r') (by decide),
    differ (d := '\t') (by decide)]

theorem escape_of_mem {c : Char} (special : c ∈ escaped) :
    ∃ code, escape c = '\\' :: code := by
  have all : escaped.all (fun c => (escape c).head? == some '\\') = true := by decide +kernel
  have leading := List.all_eq_true.mp all c special
  exact ⟨_, List.eq_cons_of_mem_head? (beq_iff_eq.mp leading)⟩

theorem escape_prefix_free {c d : Char} (within : escape c <+: escape d) : c = d := by
  by_cases special : c ∈ escaped <;> by_cases other : d ∈ escaped
  · have all : escaped.all (fun c => escaped.all fun d =>
        !(escape c).isPrefixOf (escape d) || c == d) = true := by decide +kernel
    have pair := List.all_eq_true.mp (List.all_eq_true.mp all c special) d other
    simpa [List.isPrefixOf_iff_prefix.mpr within] using pair
  · obtain ⟨code, text⟩ := escape_of_mem special
    rw [text, escape_of_not_mem other, List.cons_prefix_cons] at within
    exact absurd within.1 fun same => other (same ▸ by decide)
  · obtain ⟨code, text⟩ := escape_of_mem other
    rw [text, escape_of_not_mem special, List.cons_prefix_cons] at within
    exact absurd within.1 fun same => special (same ▸ by decide)
  · rw [escape_of_not_mem special, escape_of_not_mem other] at within
    exact (List.cons_prefix_cons.mp within).1

theorem escape_append_inj {c d : Char} {x y : Text} (same : escape c ++ x = escape d ++ y) :
    c = d ∧ x = y := by
  have one : c = d := by
    rcases List.prefix_or_prefix_of_prefix (List.prefix_append _ x)
      (same ▸ List.prefix_append _ y) with within | within
    · exact escape_prefix_free within
    · exact (escape_prefix_free within).symm
  subst one
  exact ⟨rfl, List.append_cancel_left same⟩

theorem escape_ne_quote (c : Char) (x y : Text) : '"' :: x ≠ escape c ++ y := by
  by_cases special : c ∈ escaped
  · obtain ⟨code, text⟩ := escape_of_mem special
    simp [text]
  · rw [escape_of_not_mem special]
    intro same
    obtain ⟨rfl, _⟩ : '"' = c ∧ _ := by simpa using same
    exact special (by decide)

theorem quoted_append_inj {t u x y : Text} (same : quoted t ++ x = quoted u ++ y) :
    t = u ∧ x = y := by
  have inner : t.flatMap escape ++ '"' :: x = u.flatMap escape ++ '"' :: y := by
    simpa [quoted] using same
  clear same
  induction t generalizing u with
  | nil =>
    cases u with
    | nil => simpa using inner
    | cons d u => exact absurd (by simpa using inner) (escape_ne_quote d x _)
  | cons c t ih =>
    cases u with
    | nil => exact absurd (by simpa using inner.symm) (escape_ne_quote c y _)
    | cons d u =>
      rw [List.flatMap_cons, List.flatMap_cons, List.append_assoc, List.append_assoc] at inner
      obtain ⟨rfl, rest⟩ := escape_append_inj inner
      obtain ⟨rfl, rfl⟩ := ih rest
      exact ⟨rfl, rfl⟩

theorem page_record (k : Text) (v : Value) (fields : List (Text × Value)) :
    ∃ rest, page (.record ((k, v) :: fields)) =
      "\x7b\n  ".toList ++ (quoted k ++ ':' :: ' ' :: (indentedAt 1 v ++ rest)) := by
  cases fields <;> simp [page, indented, indentedAt, indentedFields, newline]

end Json

theorem FileRecords.page_eq (e : FileRecords) : ∃ rest, Json.page e.value = "\x7b\n  ".toList ++
    (Json.quoted "file".toList ++ ':' :: ' ' :: (Json.quoted e.file ++ rest)) :=
  Json.page_record _ (.text e.file) _

theorem FileRecords.file_eq_of_page_eq {e f : FileRecords}
    (same : Json.page e.value = Json.page f.value) : e.file = f.file := by
  obtain ⟨rest, page⟩ := e.page_eq
  obtain ⟨rest', page'⟩ := f.page_eq
  rw [page, page'] at same
  have after_key := (Json.quoted_append_inj (List.append_cancel_left same)).2
  exact (Json.quoted_append_inj (by simpa using after_key)).1

theorem Document.page_ne (d : Document) (e : FileRecords) :
    Json.page d.value ≠ Json.page e.value := by
  obtain ⟨rest, page⟩ := e.page_eq
  obtain ⟨rest', page'⟩ : ∃ rest, Json.page d.value = _ :=
    Json.page_record "files".toList (.ofList FileRecords.value d.files) []
  intro same
  rw [page, page'] at same
  have key := (Json.quoted_append_inj (List.append_cancel_left same)).1
  simp at key

end DocHarvest
