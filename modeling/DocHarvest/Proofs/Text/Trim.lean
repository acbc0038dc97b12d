import DocHarvest.Text.Basic
import Mathlib.Data.List.TakeWhile

set_option autoImplicit false

namespace DocHarvest.Text

theorem isBlank_of_isWord {c : Char} (word : isWord c = true) : isBlank c = false := by
  have bounds : 48 ≤ c.toNat ∧ c.toNat ≤ 122 := by
    simp only [isWord, isNameStart, isLetter, isDigit, Bool.or_eq_true, Bool.and_eq_true,
      decide_eq_true_eq, Char.le_def, UInt32.le_iff_toNat_le, beq_iff_eq] at word
    rcases word with ((⟨low, high⟩ | ⟨low, high⟩) | rfl) | ⟨low, high⟩
    · exact ⟨Nat.le_trans (by decide) low, high⟩
    · exact ⟨Nat.le_trans (by decide) low, Nat.le_trans high (by decide)⟩
    · decide
    · exact ⟨low, Nat.le_trans high (by decide)⟩
  simp [isBlank]
  omega

theorem dropBlanks_append_of_blank {a x : Text} (blank : ∀ c ∈ a, isBlank c = true) :
    dropBlanks (a ++ x) = dropBlanks x := by
  unfold dropBlanks
  rw [List.dropWhile_append_of_pos blank]

theorem dropBlanks_of_head {x : Text} (shown : ∀ c ∈ x.head?, isBlank c = false) :
    dropBlanks x = x := by
  cases x with
  | nil => rfl
  | cons c x => simp [dropBlanks, shown c (by simp)]

theorem dropBlanks_append_shown {c : Char} (shown : isBlank c = false) (x y : Text) :
    dropBlanks (x ++ c :: y) = dropBlanks x ++ c :: y := by
  induction x with
  | nil => simp [dropBlanks, shown]
  | cons d x ih => cases blank : isBlank d <;> simp_all [dropBlanks]

theorem trimEnd_append_of_blank {x b : Text} (blank : ∀ c ∈ b, isBlank c = true) :
    trimEnd (x ++ b) = trimEnd x := by
  unfold trimEnd
  rw [List.reverse_append, List.dropWhile_append_of_pos (by simpa using blank)]

theorem trimEnd_of_last {x : Text} (shown : ∀ c ∈ x.getLast?, isBlank c = false) :
    trimEnd x = x := by
  have front := dropBlanks_of_head (x := x.reverse) (by simpa using shown)
  unfold dropBlanks at front
  simp [trimEnd, front]

theorem trim_of_ends {x : Text} (first : ∀ c ∈ x.head?, isBlank c = false)
    (last : ∀ c ∈ x.getLast?, isBlank c = false) : trim x = x := by
  rw [trim, dropBlanks_of_head first, trimEnd_of_last last]

theorem trim_of_blank {x : Text} (blank : ∀ c ∈ x, isBlank c = true) : trim x = [] := by
  have front := dropBlanks_append_of_blank (x := []) blank
  rw [List.append_nil] at front
  rw [trim, front]
  rfl

theorem trim_between {a x b : Text} (before : ∀ c ∈ a, isBlank c = true)
    (after : ∀ c ∈ b, isBlank c = true) (first : ∀ c ∈ x.head?, isBlank c = false)
    (last : ∀ c ∈ x.getLast?, isBlank c = false) (shown : x ≠ []) :
    trim (a ++ x ++ b) = x := by
  have front : ∀ c ∈ (x ++ b).head?, isBlank c = false := by
    cases x with
    | nil => exact absurd rfl shown
    | cons c x => simpa using first
  rw [trim, List.append_assoc, dropBlanks_append_of_blank before, dropBlanks_of_head front,
    trimEnd_append_of_blank after, trimEnd_of_last last]

theorem length_trimEnd_le (t : Text) : (trimEnd t).length ≤ t.length := by
  have shorter := (List.dropWhile_sublist (l := t.reverse) isBlank).length_le
  simpa [trimEnd] using shorter

theorem dropBlanks_of_trim {t : Text} (trimmed : trim t = t) : dropBlanks t = t := by
  have shorter := length_trimEnd_le (dropBlanks t)
  rw [← trim, trimmed] at shorter
  exact (List.dropWhile_sublist isBlank).eq_of_length_le shorter

theorem trimEnd_of_trim {t : Text} (trimmed : trim t = t) : trimEnd t = t := by
  have same := trimmed
  rwa [trim, dropBlanks_of_trim trimmed] at same

theorem head_dropBlanks_shown (t : Text) : ∀ c ∈ (dropBlanks t).head?, isBlank c = false := by
  intro c first
  have shown := List.head?_dropWhile_not isBlank t
  rwa [show List.dropWhile isBlank t = dropBlanks t from rfl, Option.mem_def.mp first] at shown

theorem head_shown_of_trim {t : Text} (trimmed : trim t = t) :
    ∀ c ∈ t.head?, isBlank c = false := by
  have shown := head_dropBlanks_shown t
  rwa [dropBlanks_of_trim trimmed] at shown

theorem last_trimEnd_shown (t : Text) : ∀ c ∈ (trimEnd t).getLast?, isBlank c = false := by
  have shown := head_dropBlanks_shown t.reverse
  simpa [trimEnd, dropBlanks] using shown

theorem trim_cons_blank {c : Char} (blank : isBlank c = true) (t : Text) :
    trim (c :: t) = trim t := by
  simp [trim, dropBlanks, blank]

theorem trimEnd_isPrefix (t : Text) : trimEnd t <+: t := by
  have behind := List.reverse_prefix.mpr (List.dropWhile_suffix (l := t.reverse) isBlank)
  rwa [List.reverse_reverse] at behind

theorem head_trim_shown (t : Text) : ∀ c ∈ (trim t).head?, isBlank c = false := by
  intro c first
  obtain ⟨more, whole⟩ := trimEnd_isPrefix (dropBlanks t)
  apply head_dropBlanks_shown t
  rw [← whole, List.head?_append, ← trim, Option.mem_def.mp first]
  rfl

theorem trim_trim (t : Text) : trim (trim t) = trim t :=
  trim_of_ends (head_trim_shown t) (last_trimEnd_shown (dropBlanks t))

theorem allBlank_of_trim_eq_nil {t : Text} (nothing : trim t = []) : allBlank t = true := by
  have behind : ∀ c ∈ dropBlanks t, isBlank c = true := by
    simpa [trim, trimEnd, List.dropWhile_eq_nil_iff] using nothing
  have none_left : dropBlanks t = [] := by
    cases found : dropBlanks t with
    | nil => rfl
    | cons c more =>
      have shown := head_dropBlanks_shown t c (by simp [found])
      simp [behind c (by simp [found])] at shown
  simpa [allBlank, dropBlanks, List.dropWhile_eq_nil_iff] using none_left

theorem trim_eq_nil_iff {t : Text} : trim t = [] ↔ ∀ c ∈ t, isBlank c = true := by
  constructor
  · intro nothing
    simpa [allBlank] using allBlank_of_trim_eq_nil nothing
  · exact trim_of_blank

theorem exists_trim (t : Text) : ∃ before after : Text,
    (∀ c ∈ before, isBlank c = true) ∧ (∀ c ∈ after, isBlank c = true) ∧
      t = before ++ trim t ++ after := by
  have front : t = t.takeWhile isBlank ++ dropBlanks t := List.takeWhile_append_dropWhile.symm
  have back : dropBlanks t =
      trim t ++ ((dropBlanks t).reverse.takeWhile isBlank).reverse := by
    rw [trim, trimEnd, ← List.reverse_append, List.takeWhile_append_dropWhile,
      List.reverse_reverse]
  refine ⟨t.takeWhile isBlank, ((dropBlanks t).reverse.takeWhile isBlank).reverse, ?_, ?_, ?_⟩
  · exact List.all_eq_true.mp List.all_takeWhile
  · simpa using List.all_eq_true.mp (List.all_takeWhile (l := (dropBlanks t).reverse))
  · rw [List.append_assoc, ← back, ← front]

theorem mem_of_mem_dropBlanks {t : Text} {c : Char} (member : c ∈ dropBlanks t) : c ∈ t :=
  (List.dropWhile_sublist isBlank).mem member

theorem mem_of_mem_trimEnd {t : Text} {c : Char} (member : c ∈ trimEnd t) : c ∈ t :=
  (trimEnd_isPrefix t).mem member

theorem mem_of_mem_trim {t : Text} {c : Char} (member : c ∈ trim t) : c ∈ t :=
  mem_of_mem_dropBlanks (mem_of_mem_trimEnd member)

theorem oneLine_iff {t : Text} : oneLine t = true ↔ ∀ c ∈ t, isTerminator c = false := by
  simp [oneLine]

theorem oneLine_of_subset {t u : Text} (inside : ∀ c ∈ u, c ∈ t) (single : oneLine t = true) :
    oneLine u = true := by
  rw [oneLine_iff] at single ⊢
  exact fun c member => single c (inside c member)

end DocHarvest.Text
