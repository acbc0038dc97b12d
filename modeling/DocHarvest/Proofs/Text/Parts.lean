import DocHarvest.Text.Basic
import Mathlib.Data.List.Basic

set_option autoImplicit false

namespace DocHarvest.Text

theorem bne_of_not_mem {x : Char} {t : Text} (absent : x ∉ t) : ∀ c ∈ t, (c != x) = true := by
  intro c member
  simpa using fun same : c = x => absent (same ▸ member)

theorem takeWhile_before {x : Char} {t : Text} (absent : x ∉ t) (rest : Text) :
    (t ++ x :: rest).takeWhile (· != x) = t := by
  simp [List.takeWhile_append_of_pos (bne_of_not_mem absent)]

theorem dropWhile_before {x : Char} {t : Text} (absent : x ∉ t) (rest : Text) :
    (t ++ x :: rest).dropWhile (· != x) = x :: rest := by
  simp [List.dropWhile_append_of_pos (bne_of_not_mem absent)]

theorem splitOn_append (x : Char) (a b : Text) :
    (a ++ x :: b).splitOn x = a.splitOn x ++ b.splitOn x :=
  List.splitOnP_append_cons a b (beq_self_eq_true x)

theorem mem_splitOn {x c : Char} {t part : Text} (member : part ∈ t.splitOn x) (inside : c ∈ part) :
    c ∈ t ∧ c ≠ x := by
  induction t generalizing part with
  | nil =>
    obtain rfl : part = [] := by simpa [List.splitOn] using member
    cases inside
  | cons d t ih =>
    have later {p : Text} (listed : p ∈ t.splitOn x) (inside : c ∈ p) : c ∈ d :: t ∧ c ≠ x :=
      (ih listed inside).imp_left (List.mem_cons_of_mem d)
    rw [List.splitOn, List.splitOnP_cons_eq_if_modifyHead] at member
    by_cases cuts : d = x
    · simp only [cuts, beq_self_eq_true, if_true, List.mem_cons] at member
      rcases member with rfl | member
      · cases inside
      · exact later member inside
    · simp only [beq_iff_eq, cuts, if_false] at member
      obtain ⟨first, more, split⟩ := List.exists_cons_of_ne_nil (List.splitOn_ne_nil x t)
      have shape : t.splitOnP (· == x) = first :: more := split
      rw [shape, List.modifyHead_cons, List.mem_cons] at member
      rcases member with rfl | member
      · rcases List.mem_cons.mp inside with rfl | inside
        · exact ⟨by simp, cuts⟩
        · exact later (by simp [split]) inside
      · exact later (by simp [split, member]) inside

theorem mem_intercalate {sep : Text} {parts : List Text} {c : Char}
    (member : c ∈ sep.intercalate parts) : c ∈ sep ∨ ∃ part ∈ parts, c ∈ part := by
  induction parts with
  | nil => simp at member
  | cons part parts ih =>
    cases parts with
    | nil => exact .inr ⟨part, by simp, by simpa using member⟩
    | cons next parts =>
      rw [List.intercalate_cons_cons, List.append_assoc, List.mem_append, List.mem_append] at member
      rcases member with here | between | later
      · exact .inr ⟨part, by simp, here⟩
      · exact .inl between
      · exact (ih later).imp_right fun ⟨p, listed, inside⟩ => ⟨p, by simp [listed], inside⟩

theorem intercalate_injective {x : Char} {as bs : List Text} (parts : ∀ a ∈ as, a ≠ [] ∧ x ∉ a)
    (others : ∀ b ∈ bs, b ≠ [] ∧ x ∉ b)
    (same : [x].intercalate as = [x].intercalate bs) : as = bs := by
  have cut {ts : List Text} (whole : ∀ t ∈ ts, t ≠ [] ∧ x ∉ t) (some_part : ts ≠ []) :
      ([x].intercalate ts).splitOn x = ts :=
    List.splitOn_intercalate x (fun t member => (whole t member).2) some_part
  have filled {ts : List Text} (whole : ∀ t ∈ ts, t ≠ [] ∧ x ∉ t)
      (empty : [x].intercalate ts = []) : ts = [] := by
    by_contra some_part
    have parts := cut whole some_part
    rw [empty] at parts
    exact (whole [] (by simp [← parts, List.splitOn])).1 rfl
  by_cases none_left : as = []
  · subst none_left
    exact (filled others same.symm).symm
  · have some_right : bs ≠ [] := by
      rintro rfl
      exact none_left (filled parts same)
    rw [← cut parts none_left, same, cut others some_right]

end DocHarvest.Text
