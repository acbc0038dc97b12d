import DocHarvest.Comment.Annotation
import DocHarvest.Proofs.Text.Trim
import Mathlib.Data.List.Basic

set_option autoImplicit false

namespace DocHarvest.Comment

theorem body?_of_isBlankLine {line : Text} (blank : isBlankLine line = true) :
    body? line = none := by
  have none_left : Text.dropBlanks line = [] := by
    simpa [Text.dropBlanks, isBlankLine, Text.allBlank, List.dropWhile_eq_nil_iff] using blank
  simp [body?, split?, none_left]

theorem afterMarker?_of_body? {line : Text} (plain : body? line = none) (lead : String) :
    afterMarker? lead line = none := by
  simp [afterMarker?, plain]

theorem annotation?_of_body? {line : Text} (plain : body? line = none) (s : Settings)
    (inFence : Bool) : annotation? s inFence line = none := by
  have marker := afterMarker?_of_body? plain
  cases inFence with
  | true => simp [annotation?, insideFence?, closesFence, code?, marker, plain]
  | false =>
    simp [annotation?, outsideFence?, generic?, param?, returns?, fenceOpen?, isIgnored, isEmpty,
      isHeader, prose?, marker, plain]

theorem isBlankLine_of_annotation? {s : Settings} {inFence : Bool} {line : Text}
    (accepted : (annotation? s inFence line).isSome = true) : isBlankLine line = false := by
  by_contra blank
  have plain := body?_of_isBlankLine (by simpa using blank)
  rw [annotation?_of_body? plain s inFence] at accepted
  cases accepted

-- A line as blanks, a marker and the rest behind it. A third dash belongs to the marker.
def Marked (line rest : Text) : Prop :=
  ∃ indent marker : Text, Text.allBlank indent = true ∧ line = indent ++ marker ++ rest ∧
    (marker = richMarker.toList ∨ marker = plainMarker.toList ∧ rest.head? ≠ some '-')

theorem marked_of_body? {line rest : Text} (body : body? line = some rest) : Marked line rest := by
  have parts : line = line.takeWhile Text.isBlank ++ Text.dropBlanks line :=
    List.takeWhile_append_dropWhile.symm
  have indent : Text.allBlank (line.takeWhile Text.isBlank) = true := List.all_takeWhile
  simp only [body?, split?, Option.map_eq_some_iff, Prod.exists] at body
  obtain ⟨level, rest, found, rfl⟩ := body
  split at found
  · next t shown =>
    cases found
    rw [shown] at parts
    exact ⟨_, richMarker.toList, indent, by rwa [List.append_assoc], .inl rfl⟩
  · next t shorter shown =>
    cases found
    rw [shown] at parts
    refine ⟨_, plainMarker.toList, indent, by rwa [List.append_assoc], .inr ⟨rfl, ?_⟩⟩
    intro dash
    obtain ⟨more, rfl⟩ := List.head?_eq_some_iff.mp dash
    exact shorter more rfl
  · cases found

theorem Marked.body? {line rest : Text} (marked : Marked line rest) : body? line = some rest := by
  obtain ⟨indent, marker, blank, rfl, kind⟩ := marked
  have shown : Text.dropBlanks (indent ++ marker ++ rest) = marker ++ rest := by
    rw [List.append_assoc, Text.dropBlanks_append_of_blank (List.all_eq_true.mp blank)]
    apply Text.dropBlanks_of_head
    rcases kind with rfl | ⟨rfl, _⟩ <;> simp [richMarker, plainMarker] <;> decide
  rcases kind with rfl | ⟨rfl, no_dash⟩
  · rw [Comment.body?, split?, shown]
    rfl
  · rw [Comment.body?, split?, shown]
    cases rest with
    | nil => rfl
    | cons c rest =>
      have plain : c ≠ '-' := by simpa using no_dash
      simp [plainMarker, plain]

theorem after?_eq_some {lead : String} {t r : Text} :
    Text.after? lead t = some r ↔ t = lead.toList ++ r := by
  rw [Text.after?, List.isPrefixOf?_eq_some_iff_append_eq, eq_comm]

-- What follows the blanks after the marker starts with one text only.
theorem afterMarker?_of_clash {line t : Text} {lead : String}
    (read : afterMarker? lead line = some t) (other : String)
    (clash : ∀ x y, lead.toList ++ x ≠ other.toList ++ y) : afterMarker? other line = none := by
  simp only [afterMarker?, Option.bind_eq_some_iff] at read
  obtain ⟨body, hbody, read⟩ := read
  cases h : Text.after? other (Text.dropBlanks body) with
  | none => simp [afterMarker?, hbody, h]
  | some u => exact absurd ((after?_eq_some.mp read).symm.trans (after?_eq_some.mp h)) (clash t u)

theorem outsideFence?_of_fenceOpen? {s : Settings} {line lang : Text}
    (opens : fenceOpen? s line = some lang) :
    outsideFence? s line = some (some (.fenceOpen lang)) := by
  obtain ⟨t, read, _⟩ := Option.map_eq_some_iff.mp opens
  have generic := afterMarker?_of_clash read "@generic" (by simp)
  have param := afterMarker?_of_clash read "@param" (by simp)
  have returns := afterMarker?_of_clash read "@return" (by simp)
  simp [outsideFence?, generic?, param?, returns?, generic, param, returns, opens]

theorem outsideFence?_cases {s : Settings} {line : Text} {a : Option Annotation}
    (said : outsideFence? s line = some a) :
    (∃ g, generic? s line = some g ∧ a = some (.generic g)) ∨
    (∃ p, param? s line = some p ∧ a = some (.param p)) ∨
    (∃ r, returns? s line = some r ∧ a = some (.returns r)) ∨
    (∃ lang, fenceOpen? s line = some lang ∧ a = some (.fenceOpen lang)) ∨
    (isIgnored line = true ∧ a = none) ∨ (∃ t, prose? line = some t ∧ a = some (.prose t)) := by
  unfold outsideFence? at said
  cases hg : generic? s line with
  | some g => simp_all
  | none =>
    cases hp : param? s line with
    | some p => simp_all
    | none =>
      cases hr : returns? s line with
      | some r => simp_all
      | none =>
        cases hf : fenceOpen? s line with
        | some lang => simp_all
        | none =>
          cases hi : isIgnored line with
          | true => simp_all
          | false =>
            simp only [hg, hp, hr, hf, hi, Bool.false_eq_true, if_false,
              Option.map_eq_some_iff] at said
            obtain ⟨t, ht, rfl⟩ := said
            simp [ht]

def isHeaderText (t : Text) : Bool :=
  match headerTitle? (Text.dropBlanks t) with
  | some t =>
    match Text.dropBlanks (skipNotes t) with
    | ':' :: r => Text.allBlank r
    | r => r == []
  | none => false

theorem isHeader_eq (line : Text) : isHeader line = (body? line).any isHeaderText := by
  cases body : body? line with
  | none => simp [isHeader, body]
  | some t =>
    have title : isHeader line = isHeaderText t := by
      unfold isHeader
      rw [body]
      rfl
    simp [title]

end DocHarvest.Comment
