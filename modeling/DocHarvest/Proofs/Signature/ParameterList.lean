import DocHarvest.Proofs.Text.Parts
import DocHarvest.Proofs.Text.Trim
import DocHarvest.Signature

set_option autoImplicit false

namespace DocHarvest.Signature

open Text

structure IsEntry (p : Text) : Prop where
  ne_nil : p ≠ []
  trim : Text.trim p = p
  no_comma : ',' ∉ p

instance (p : Text) : Decidable (IsEntry p) :=
  decidable_of_iff (p ≠ [] ∧ Text.trim p = p ∧ ',' ∉ p)
    ⟨fun ⟨shown, trimmed, comma⟩ => ⟨shown, trimmed, comma⟩,
      fun ⟨shown, trimmed, comma⟩ => ⟨shown, trimmed, comma⟩⟩

-- The text holds these entries in order, with a comma between any two, and blanks or none around
-- the commas and at both ends.
inductive Lists : List Text → Text → Prop
  | none {gap : Text} (blank : ∀ c ∈ gap, isBlank c = true) : Lists [] gap
  | last (before p after : Text) (blank : ∀ c ∈ before, isBlank c = true)
      (blank' : ∀ c ∈ after, isBlank c = true) : Lists [p] (before ++ p ++ after)
  | next (before p after : Text) {q t : Text} {ps : List Text}
      (blank : ∀ c ∈ before, isBlank c = true) (blank' : ∀ c ∈ after, isBlank c = true)
      (rest : Lists (q :: ps) t) :
      Lists (p :: q :: ps) (before ++ p ++ after ++ ',' :: t)

def argumentList (params : List Text) : Text := [',', ' '].intercalate params

theorem splitParams_append (a b : Text) :
    splitParams (a ++ ',' :: b) = splitParams a ++ splitParams b := by
  simp only [splitParams, splitOn_append, List.map_append, List.filter_append]

theorem splitParams_of_no_comma {t : Text} (single : ',' ∉ t) :
    splitParams t = [trim t].filter (· != []) := by
  rw [splitParams, List.splitOn_eq_singleton single, List.map_singleton]

theorem mem_splitParams {t p : Text} (member : p ∈ splitParams t) :
    IsEntry p ∧ ∀ c ∈ p, c ∈ t := by
  simp only [splitParams, List.mem_filter, List.mem_map, bne_iff_ne] at member
  rcases member with ⟨⟨part, found, rfl⟩, ne_nil⟩
  have inside {c : Char} (here : c ∈ Text.trim part) : c ∈ t ∧ c ≠ ',' :=
    mem_splitOn found (mem_of_mem_trim here)
  constructor
  · exact ⟨ne_nil, trim_trim part, fun comma => (inside comma).2 rfl⟩
  · exact fun c here => (inside here).1

theorem no_comma_of_blank {gap : Text} (blank : ∀ c ∈ gap, isBlank c = true) : ',' ∉ gap := by
  intro comma
  exact absurd (blank ',' comma) (by decide)

section Listed

variable {params : List Text} {t p before after gap : Text}

theorem splitParams_of_entry (entry : IsEntry p) (blank : ∀ c ∈ before, isBlank c = true)
    (blank' : ∀ c ∈ after, isBlank c = true) :
    splitParams (before ++ p ++ after) = [p] := by
  have single : ',' ∉ before ++ p ++ after := by
    simp [no_comma_of_blank blank, no_comma_of_blank blank', entry.no_comma]
  have last : ∀ c ∈ p.getLast?, isBlank c = false := by
    have shown := last_trimEnd_shown p
    rwa [trimEnd_of_trim entry.trim] at shown
  have trimmed : Text.trim (before ++ p ++ after) = p :=
    trim_between blank blank' (head_shown_of_trim entry.trim) last entry.ne_nil
  rw [splitParams_of_no_comma single, trimmed]
  simp [entry.ne_nil]

theorem splitParams_of_blank (blank : ∀ c ∈ gap, isBlank c = true) : splitParams gap = [] := by
  simp [splitParams_of_no_comma (no_comma_of_blank blank), trim_of_blank blank]

-- The list is cut at its first comma, and each step reads the entry before it.
theorem Lists.splitParams (listed : Lists params t) (entries : ∀ p ∈ params, IsEntry p) :
    splitParams t = params := by
  induction listed with
  | none blank => exact splitParams_of_blank blank
  | last before p after blank blank' =>
    exact splitParams_of_entry (entries p (by simp)) blank blank'
  | next before p after blank blank' rest ih =>
    have first := splitParams_of_entry (entries p (by simp)) blank blank'
    have later := ih fun p member => entries p (by simp [member])
    rw [splitParams_append, first, later, List.singleton_append]

theorem Lists.after_blanks (listed : Lists params t) (blank : ∀ c ∈ gap, isBlank c = true) :
    Lists params (gap ++ t) := by
  have wider {x : Text} (blanks : ∀ c ∈ x, isBlank c = true) :
      ∀ c ∈ gap ++ x, isBlank c = true := by
    intro c member
    rcases List.mem_append.mp member with member | member
    · exact blank c member
    · exact blanks c member
  cases listed with
  | none blanks => exact .none (wider blanks)
  | last before p after blanks blank' =>
    simpa using Lists.last (gap ++ before) p after (wider blanks) blank'
  | next before p after blanks blank' rest =>
    simpa using Lists.next (gap ++ before) p after (wider blanks) blank' rest

theorem lists_argumentList (params : List Text) : Lists params (argumentList params) := by
  induction params with
  | nil => exact .none (by simp [argumentList])
  | cons p ps ih =>
    cases ps with
    | nil => simpa [argumentList] using Lists.last [] p [] (by simp) (by simp)
    | cons q ps =>
      have space : ∀ c ∈ [' '], isBlank c = true := by simp [isBlank]
      have rest : Lists (q :: ps) ([' '] ++ argumentList (q :: ps)) := ih.after_blanks space
      have whole := Lists.next [] p [] (by simp) (by simp) rest
      simpa [argumentList, List.intercalate_cons_cons] using whole

end Listed

-- Reading respects the commas of a text and undoes writing: what is read is a list of entries, any
-- such list is read from each text that holds it, and so reading what was read changes nothing.
theorem splitParams_undoes_listing :
    (∀ a b, splitParams (a ++ ',' :: b) = splitParams a ++ splitParams b) ∧
    (∀ raw, ∀ p ∈ splitParams raw, IsEntry p) ∧
    (∀ params t, (∀ p ∈ params, IsEntry p) → Lists params t → splitParams t = params) ∧
    ∀ raw, splitParams (argumentList (splitParams raw)) = splitParams raw := by
  have entries (raw : Text) : ∀ p ∈ splitParams raw, IsEntry p :=
    fun p member => (mem_splitParams member).1
  refine ⟨splitParams_append, entries, ?_, ?_⟩
  · intro params t each listed
    exact listed.splitParams each
  · intro raw
    exact (lists_argumentList (splitParams raw)).splitParams (entries raw)

-- Entries with blanks inside and parentheses, and blanks of several kinds around them; and a text
-- in which commas stand together and at the ends.
theorem splitParams_undoes_listing_sample :
    let params := ["a", "b  c", "f()"].map String.toList
    let t := "\t a\n,\u00a0b  c,\u3000f() ".toList
    let raw := ",a , ,b  c,,f()\u2028,".toList
    (∀ p ∈ params, IsEntry p) ∧ Lists params t ∧ splitParams t = params ∧
      (∀ p ∈ splitParams raw, IsEntry p) ∧
      splitParams (argumentList (splitParams raw)) = splitParams raw ∧
      splitParams (raw ++ ',' :: t) = splitParams raw ++ params := by
  intro params t raw
  have laws := splitParams_undoes_listing
  rcases laws with ⟨cut, entries, undone, again⟩
  have each : ∀ p ∈ params, IsEntry p := by decide
  have blank {gap : Text} (all : allBlank gap = true) : ∀ c ∈ gap, isBlank c = true :=
    List.all_eq_true.mp all
  have third : Lists ["f()".toList] "\u3000f() ".toList :=
    .last ['\u3000'] "f()".toList [' '] (blank rfl) (blank rfl)
  have second : Lists ["b  c".toList, "f()".toList] "\u00a0b  c,\u3000f() ".toList :=
    .next ['\u00a0'] "b  c".toList [] (blank rfl) (blank rfl) third
  have listed : Lists params t :=
    .next ['\t', ' '] ['a'] ['\n'] (blank rfl) (blank rfl) second
  have read := undone params t each listed
  refine ⟨each, listed, read, entries raw, again raw, ?_⟩
  rw [cut, read]

end DocHarvest.Signature
