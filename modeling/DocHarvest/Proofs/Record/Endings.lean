import DocHarvest.Proofs.Text.Lines
import DocHarvest.Record
import Mathlib.Data.List.Basic

set_option autoImplicit false

namespace DocHarvest

namespace Text

def endings : List Text := ["\n", "\r", "\r\n"].map String.toList

def mergePairs : Text → Text
  | [] => []
  | '\r' :: '\n' :: t => '\n' :: mergePairs t
  | c :: t => c :: mergePairs t

-- The two characters together are replaced first, so that a return before them still counts.
def withFeeds (t : Text) : Text := (mergePairs t).map fun c => if c = '\r' then '\n' else c

def Uncut (t : Text) : Prop := ∀ c ∈ t, isCut c = false

instance (t : Text) : Decidable (Uncut t) :=
  decidable_of_iff (t.all (!isCut ·) = true) (by simp [Uncut])

theorem linesFrom_append {u : Text} (uncut : Uncut u) (current t : Text) :
    linesFrom current (u ++ t) = linesFrom (u.reverse ++ current) t := by
  induction u generalizing current with
  | nil => rfl
  | cons c u ih =>
    have plain : c ≠ '\n' ∧ c ≠ '\r' := by simpa [isCut] using uncut c (by simp)
    have later := ih (fun d member => uncut d (by simp [member])) (c :: current)
    simp [linesFrom, plain, later]

theorem lines_of_uncut {u : Text} (uncut : Uncut u) : lines u = [u] := by
  have read := linesFrom_append uncut [] []
  simpa [lines, linesFrom] using read

-- A return that a line feed follows would not be an ending of its own.
theorem lines_append_ending {u ending t : Text} (uncut : Uncut u) (known : ending ∈ endings)
    (apart : ending = ['\r'] → ∀ c ∈ t.head?, c ≠ '\n') :
    lines (u ++ ending ++ t) = u :: lines t := by
  have read := linesFrom_append uncut [] (ending ++ t)
  rw [lines, List.append_assoc, read]
  simp only [endings, List.map_cons, List.map_nil, List.mem_cons, List.not_mem_nil, or_false]
    at known
  rcases known with rfl | rfl | rfl
  · simp [linesFrom, lines]
  · cases t with
    | nil => simp [linesFrom, lines]
    | cons c t =>
      have plain : c ≠ '\n' := apart rfl c (by simp)
      simp [linesFrom, lines, plain]
  · simp [linesFrom, lines]

theorem head_joined_by_returns {line : Text} (uncut : Uncut line) (rest : List Text) :
    ∀ c ∈ (['\r'].intercalate (line :: rest)).head?, c ≠ '\n' := by
  cases line with
  | nil => cases rest <;> simp [List.intercalate_cons_cons]
  | cons c line =>
    have plain : c ≠ '\n' ∧ c ≠ '\r' := by simpa [isCut] using uncut c (by simp)
    cases rest <;> simp [List.intercalate_cons_cons, plain]

theorem lines_intercalate {ls : List Text} (some_line : ls ≠ []) (uncut : ∀ line ∈ ls, Uncut line)
    {ending : Text} (known : ending ∈ endings) : lines (ending.intercalate ls) = ls := by
  induction ls with
  | nil => exact absurd rfl some_line
  | cons line rest ih =>
    have here := uncut line (by simp)
    cases rest with
    | nil => simpa using lines_of_uncut here
    | cons next rest =>
      have later := ih (by simp) fun l member => uncut l (by simp [member])
      have apart : ending = ['\r'] → ∀ c ∈ (ending.intercalate (next :: rest)).head?, c ≠ '\n' := by
        intro return_only
        rw [return_only]
        exact head_joined_by_returns (uncut next (by simp)) rest
      rw [List.intercalate_cons_cons, lines_append_ending here known apart, later]

theorem linesFrom_ne_nil (current t : Text) : linesFrom current t ≠ [] := by
  fun_induction linesFrom current t with
  | case1 | case2 | case3 => simp
  | case4 current c t _ inside ih => exact ih

theorem withFeeds_cons {c : Char} {t : Text} (single : ∀ rest, c = '\r' → t ≠ '\n' :: rest) :
    withFeeds (c :: t) = (if c = '\r' then '\n' else c) :: withFeeds t := by
  have merged : mergePairs (c :: t) = c :: mergePairs t := by
    rw [mergePairs]
    exact single
  simp [withFeeds, merged]

theorem intercalate_linesFrom (current t : Text) :
    ['\n'].intercalate (linesFrom current t) = current.reverse ++ withFeeds t := by
  fun_induction linesFrom current t with
  | case1 current => simp [withFeeds, mergePairs]
  | case2 current t ih =>
    rw [List.intercalate_cons_of_ne_nil (linesFrom_ne_nil [] t), ih]
    simp [withFeeds, mergePairs]
  | case3 current c t single cuts ih =>
    rw [List.intercalate_cons_of_ne_nil (linesFrom_ne_nil [] t), ih, withFeeds_cons single]
    rcases (by simpa using cuts : c = '\n' ∨ c = '\r') with rfl | rfl <;> simp
  | case4 current c t single inside ih =>
    have plain : c ≠ '\n' ∧ c ≠ '\r' := by simpa using inside
    rw [ih, withFeeds_cons single]
    simp [plain]

theorem intercalate_lines (t : Text) : ['\n'].intercalate (lines t) = withFeeds t :=
  intercalate_linesFrom [] t

theorem lines_withFeeds (t : Text) : lines (withFeeds t) = lines t := by
  rw [← intercalate_lines]
  exact lines_intercalate (linesFrom_ne_nil [] t) (fun _ => uncut_of_mem_lines) (by decide)

end Text

open Text

/-- Lines are the same whichever ending parts them, and so are the records of a text. -/
theorem line_ending_makes_no_difference :
    (∀ ls : List Text, ls ≠ [] → (∀ line ∈ ls, Uncut line) → ∀ ending ∈ endings,
      lines (ending.intercalate ls) = ls) ∧
    (∀ t, (∀ line ∈ lines t, Uncut line) ∧ ['\n'].intercalate (lines t) = withFeeds t) ∧
    (∀ s, ∀ ls : List Text, (∀ line ∈ ls, Uncut line) → ∀ ending ∈ endings, ∀ other ∈ endings,
      Record.ofText s (ending.intercalate ls) = Record.ofText s (other.intercalate ls)) ∧
    ∀ s t, Record.ofText s (withFeeds t) = Record.ofText s t := by
  refine ⟨?_, ?_, ?_, ?_⟩
  · intro ls some_line uncut ending known
    exact lines_intercalate some_line uncut known
  · intro t
    exact ⟨fun _ => uncut_of_mem_lines, intercalate_lines t⟩
  · intro s ls uncut ending known other known'
    by_cases empty : ls = []
    · simp [empty]
    · rw [Record.ofText, lines_intercalate empty uncut known, Record.ofText,
        lines_intercalate empty uncut known']
  · intro s t
    rw [Record.ofText, lines_withFeeds, Record.ofText]

-- Endings in a row, each with an empty line behind it.
theorem line_ending_makes_no_difference_sample :
    let s := Settings.default
    let ls := ["--- Doc.", "", "", "function f(x)", ""].map String.toList
    let mixed := "--- Doc.\n\r\r\nfunction f(x)\r".toList
    ls ≠ [] ∧ (∀ line ∈ ls, Uncut line) ∧ lines ("\r".toList.intercalate ls) = ls ∧
      Record.ofText s ("\r\n".toList.intercalate ls) =
        Record.ofText s ("\r".toList.intercalate ls) ∧
      ['\n'].intercalate (lines mixed) = ['\n'].intercalate ls ∧
      Record.ofText s (['\n'].intercalate ls) = Record.ofText s mixed := by
  intro s ls mixed
  obtain ⟨read, written, records, merged⟩ := line_ending_makes_no_difference
  have some_line : ls ≠ [] := by decide
  have uncut : ∀ line ∈ ls, Uncut line := by decide
  have feeds : withFeeds mixed = ['\n'].intercalate ls := by decide
  refine ⟨some_line, uncut, read ls some_line uncut _ (by decide),
    records s ls uncut _ (by decide) _ (by decide), ?_, ?_⟩
  · rw [(written mixed).2, feeds]
  · rw [← feeds, merged s mixed]

end DocHarvest
