import DocHarvest.Proofs.Comment.Line
import DocHarvest.Proofs.Text.Lines

set_option autoImplicit false

namespace DocHarvest

namespace Comment

theorem isSome_body? (line : Text) : (body? line).isSome = isComment line := by
  simp [body?, isComment]

theorem mem_of_mem_body? {line t : Text} (body : body? line = some t) {c : Char}
    (member : c ∈ t) : c ∈ line := by
  simp only [body?, split?, Option.map_eq_some_iff] at body
  obtain ⟨⟨level, rest⟩, found, rfl⟩ := body
  apply Text.mem_of_mem_dropBlanks
  split at found <;> simp_all

def isDirected (s : Settings) (line : Text) : Bool :=
  (generic? s line).isSome || (param? s line).isSome || (returns? s line).isSome ||
    (fenceOpen? s line).isSome || isHeader line

-- Whether only prose or code could be read here and a line separator stands in it. Prose gives way
-- at both its ends, code does not.
def isTorn (s : Settings) (inFence : Bool) (line : Text) : Bool :=
  if inFence then !closesFence line && (body? line).any (·.any Text.isSeparator)
  else !isDirected s line && (body? line).any fun t => (Text.trim t).any Text.isSeparator

theorem isSome_insideFence? (line : Text) :
    (insideFence? line).isSome = (closesFence line || (body? line).any Text.oneLine) := by
  cases closes : closesFence line with
  | true => simp [insideFence?, closes]
  | false =>
    cases body : body? line with
    | none => simp [insideFence?, closes, code?, body]
    | some t => cases single : Text.oneLine t <;> simp [insideFence?, closes, code?, body, single]

theorem outsideFence?_of_not_directed {s : Settings} {line : Text}
    (plain : isDirected s line = false) : outsideFence? s line =
      if isEmpty line then some none else (prose? line).map fun t => some (.prose t) := by
  simp only [isDirected, Bool.or_eq_false_iff, Option.isSome_eq_false_iff,
    Option.isNone_iff_eq_none] at plain
  obtain ⟨⟨⟨⟨generic, param⟩, returns⟩, fence⟩, header⟩ := plain
  simp [outsideFence?, generic, param, returns, fence, isIgnored, header]

theorem isSome_outsideFence?_of_directed {s : Settings} {line : Text}
    (directed : isDirected s line = true) : (outsideFence? s line).isSome = true := by
  unfold outsideFence?
  split
  · rfl
  · split
    · rfl
    · split
      · rfl
      · split
        · rfl
        · have header : isHeader line = true := by
            simp_all [isDirected, Option.isSome_iff_exists]
          simp [isIgnored, header]

theorem isSome_outsideFence? (s : Settings) (line : Text) : (outsideFence? s line).isSome =
    (isDirected s line || (body? line).any fun t => Text.oneLine (Text.trim t)) := by
  cases directed : isDirected s line with
  | true => simp [isSome_outsideFence?_of_directed directed]
  | false =>
    rw [outsideFence?_of_not_directed directed]
    cases body : body? line with
    | none => simp [isEmpty, prose?, body]
    | some t =>
      by_cases blank : Text.allBlank t = true
      · -- An empty comment is skipped, and what is left of it when trimmed is on one line.
        simp [isEmpty, body, blank, Text.trim_of_blank (List.all_eq_true.mp blank), Text.oneLine]
      · cases single : Text.oneLine (Text.trim t) <;> simp [isEmpty, prose?, body, blank, single]

theorem isSome_annotation?_of_uncut {line : Text} (uncut : ∀ c ∈ line, Text.isCut c = false)
    (s : Settings) (inFence : Bool) :
    (annotation? s inFence line).isSome = (isComment line && !isTorn s inFence line) := by
  cases body : body? line with
  | none =>
    have plain : isComment line = false := by simp [← isSome_body?, body]
    simp [annotation?_of_body? body, plain]
  | some t =>
    have comment : isComment line = true := by simp [← isSome_body?, body]
    have uncut_body : ∀ c ∈ t, Text.isCut c = false :=
      fun c member => uncut c (mem_of_mem_body? body member)
    cases inFence with
    | true =>
      have code := Text.oneLine_of_uncut uncut_body
      simp [annotation?, isSome_insideFence?, isTorn, body, comment, code]
    | false =>
      have prose := Text.oneLine_of_uncut (t := Text.trim t)
        fun c member => uncut_body c (Text.mem_of_mem_trim member)
      simp [annotation?, isSome_outsideFence?, isTorn, body, comment, prose]

theorem isTorn_of_no_separator {line : Text} (plain : ∀ c ∈ line, Text.isSeparator c = false)
    (s : Settings) (inFence : Bool) : isTorn s inFence line = false := by
  cases body : body? line with
  | none => cases inFence <;> simp [isTorn, body]
  | some t =>
    have code : t.any Text.isSeparator = false :=
      List.any_eq_false.mpr fun c member => by simp [plain c (mem_of_mem_body? body member)]
    have prose : (Text.trim t).any Text.isSeparator = false :=
      List.any_eq_false.mpr fun c member => by
        simp [plain c (mem_of_mem_body? body (Text.mem_of_mem_trim member))]
    cases inFence <;> simp [isTorn, body, code, prose]

/-- The lines of a text that are accepted are its comment lines, in both modes, but for those that a
line separator tears. -/
theorem accepted_iff_untorn_comment {text line : Text} (member : line ∈ Text.lines text)
    (s : Settings) (inFence : Bool) :
    ((annotation? s inFence line).isSome = true ↔
      isComment line = true ∧ isTorn s inFence line = false) ∧
    ((∀ c ∈ line, Text.isSeparator c = false) →
      ((annotation? s inFence line).isSome = true ↔ isComment line = true)) := by
  have exact := isSome_annotation?_of_uncut (Text.uncut_of_mem_lines member) s inFence
  constructor
  · simp [exact]
  · intro plain
    simp [exact, isTorn_of_no_separator plain]

-- A separator at the end of a line tears it as code only.
theorem accepted_iff_untorn_comment_sample :
    let s := Settings.default
    let text := "x = 1\r\n--- @param x\r  -- T, U\u2028".toList
    let line := "  -- T, U\u2028".toList
    line ∈ Text.lines text ∧ (annotation? s false line).isSome = true ∧
      ¬ (annotation? s true line).isSome = true := by
  intro s text line
  have member : line ∈ Text.lines text := by decide
  refine ⟨member, ?_, ?_⟩
  · exact (accepted_iff_untorn_comment member s false).1.mpr ⟨by decide, by decide⟩
  · intro accepted
    have untorn := ((accepted_iff_untorn_comment member s true).1.mp accepted).2
    exact absurd untorn (by decide)

theorem torn_comment_refused :
    let line := "--- a\u2028b".toList
    Text.lines line = [line] ∧ isComment line = true ∧
      ∀ inFence, annotation? Settings.default inFence line = none := by
  decide

end Comment

end DocHarvest
