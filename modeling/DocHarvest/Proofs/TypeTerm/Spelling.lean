import DocHarvest.Proofs.Text.Trim
import DocHarvest.TypeTerm.Token

set_option autoImplicit false

namespace DocHarvest

namespace TypeTerm

structure Token.Sound (t : Token) : Prop where
  gap_blank : ∀ c ∈ t.gap, Text.isBlank c = true
  text_ne_nil : t.text ≠ []
  text_shown : ∀ c ∈ t.text, Text.isBlank c = false

theorem runToken_sound {gap run : Text} (blank : ∀ c ∈ gap, Text.isBlank c = true)
    (shown : ∀ c ∈ run, Text.isBlank c = false) (started : run ≠ []) :
    (runToken gap run).Sound where
  gap_blank := by simpa [runToken] using blank
  text_ne_nil := by simpa [runToken] using started
  text_shown := by simpa [runToken] using shown

-- The invariant of the scan: `gap` holds blanks alone and `run` none.
theorem tokensFrom_sound (t gap run : Text) (blank : ∀ c ∈ gap, Text.isBlank c = true)
    (shown : ∀ c ∈ run, Text.isBlank c = false) :
    (∀ k ∈ (tokensFrom gap run t).1, k.Sound) ∧
      (∀ c ∈ (tokensFrom gap run t).2, Text.isBlank c = true) := by
  induction t generalizing gap run with
  | nil =>
    by_cases started : run = []
    · simpa [tokensFrom, started] using blank
    · simpa [tokensFrom, started] using runToken_sound blank shown started
  | cons c t ih =>
    by_cases hb : Text.isBlank c = true
    · by_cases started : run = []
      · have next := ih (c :: gap) [] (by simpa [hb] using blank) (by simp)
        simpa [tokensFrom, hb, started] using next
      · have next := ih [c] [] (by simpa using hb) (by simp)
        simpa [tokensFrom, hb, started, runToken_sound blank shown started] using next
    · have next := ih [] [] (by simp) (by simp)
      have single (k : Kind) (g : Text) (hg : ∀ c ∈ g, Text.isBlank c = true) :
          Token.Sound ⟨g, k, [c]⟩ := ⟨hg, by simp, by simpa using hb⟩
      cases hk : delimiter? c with
      | none =>
        have longer := ih gap (c :: run) blank (by simpa [hb] using shown)
        simpa [tokensFrom, hb, hk] using longer
      | some k =>
        by_cases started : run = []
        · have token := single k gap.reverse (by simpa using blank)
          simpa [tokensFrom, hb, hk, started, token] using next
        · have token := single k [] (by simp)
          simpa [tokensFrom, hb, hk, started, token, runToken_sound blank shown started] using next

@[simp] theorem spelling_cons (t : Token) (ts : List Token) :
    spelling (t :: ts) = t.gap ++ t.text ++ spelling ts := rfl

@[simp] theorem spelling_append (ts us : List Token) :
    spelling (ts ++ us) = spelling ts ++ spelling us := by
  simp [spelling]

theorem spelling_tokensFrom (t gap run : Text) :
    spelling (tokensFrom gap run t).1 ++ (tokensFrom gap run t).2 =
      gap.reverse ++ run.reverse ++ t := by
  induction t generalizing gap run with
  | nil =>
    by_cases started : run = [] <;> simp [tokensFrom, started, runToken, spelling]
  | cons c t ih =>
    by_cases hb : Text.isBlank c = true
    · by_cases started : run = []
      · simp [tokensFrom, hb, started, ih]
      · simp [tokensFrom, hb, started, ih, runToken]
    · cases hk : delimiter? c with
      | none => simp [tokensFrom, hb, hk, ih]
      | some k =>
        by_cases started : run = [] <;> simp [tokensFrom, hb, hk, started, ih, runToken]

def blanksAfter (t : Text) : Text := (tokensFrom [] [] t).2

theorem sound_of_mem_tokens {t : Text} {k : Token} (member : k ∈ tokens t) : k.Sound :=
  (tokensFrom_sound t [] [] (by simp) (by simp)).1 k member

theorem blanksAfter_blank (t : Text) : ∀ c ∈ blanksAfter t, Text.isBlank c = true :=
  (tokensFrom_sound t [] [] (by simp) (by simp)).2

theorem spelling_tokens (t : Text) : spelling (tokens t) ++ blanksAfter t = t := by
  have spelled := spelling_tokensFrom t [] []
  simpa [tokens, blanksAfter] using spelled

theorem phrase_append {ts us : List Token} (started : ts ≠ []) :
    phrase (ts ++ us) = phrase ts ++ spelling us := by
  cases ts with
  | nil => exact absurd rfl started
  | cons t ts => simp [phrase]

theorem spelling_eq_nil {ts : List Token} (sound : ∀ t ∈ ts, t.Sound) (none : spelling ts = []) :
    ts = [] := by
  cases ts with
  | nil => rfl
  | cons t ts =>
    have shown := (sound t (by simp)).text_ne_nil
    simp [shown] at none

theorem phrase_eq_nil {ts : List Token} (sound : ∀ t ∈ ts, t.Sound) (none : phrase ts = []) :
    ts = [] := by
  cases ts with
  | nil => rfl
  | cons t ts =>
    have shown := (sound t (by simp)).text_ne_nil
    simp [phrase, shown] at none

theorem head_phrase_shown {ts : List Token} (sound : ∀ t ∈ ts, t.Sound) :
    ∀ c ∈ (phrase ts).head?, Text.isBlank c = false := by
  cases ts with
  | nil => simp [phrase]
  | cons t ts =>
    have t_sound := sound t (by simp)
    obtain ⟨c, text, ht⟩ := List.exists_cons_of_ne_nil t_sound.text_ne_nil
    have shown := t_sound.text_shown c (by simp [ht])
    simpa [phrase, ht] using shown

theorem last_phrase_shown {ts : List Token} (sound : ∀ t ∈ ts, t.Sound) :
    ∀ c ∈ (phrase ts).getLast?, Text.isBlank c = false := by
  rcases List.eq_nil_or_concat ts with rfl | ⟨front, t, rfl⟩
  · simp [phrase]
  · have t_sound := sound t (by simp)
    have ending : ∃ x, phrase (front ++ [t]) = x ++ t.text := by
      cases front with
      | nil => exact ⟨[], by simp [phrase, spelling]⟩
      | cons u front => exact ⟨u.text ++ spelling front ++ t.gap, by simp [phrase, spelling]⟩
    obtain ⟨x, hx⟩ := ending
    intro c hc
    rcases List.eq_nil_or_concat t.text with none | ⟨text, d, hd⟩
    · exact absurd none t_sound.text_ne_nil
    · have same : d = c := by simpa [hx, hd] using hc
      exact t_sound.text_shown c (by simp [hd, same])

theorem trim_phrase {ts : List Token} (sound : ∀ t ∈ ts, t.Sound) :
    Text.trim (phrase ts) = phrase ts :=
  Text.trim_of_ends (head_phrase_shown sound) (last_phrase_shown sound)

theorem eq_gap_phrase_blanks {t : Text} {k : Token} {ts us : List Token}
    (split : tokens t = k :: ts ++ us) :
    t = k.gap ++ phrase (k :: ts) ++ spelling us ++ blanksAfter t := by
  calc
    t = spelling (tokens t) ++ blanksAfter t := (spelling_tokens t).symm
    _ = k.gap ++ phrase (k :: ts) ++ spelling us ++ blanksAfter t := by simp [split, phrase]

theorem trim_spelling {ts : List Token} (sound : ∀ t ∈ ts, t.Sound) {after : Text}
    (blank : ∀ c ∈ after, Text.isBlank c = true) :
    Text.trim (spelling ts ++ after) = phrase ts := by
  cases ts with
  | nil => exact Text.trim_of_blank blank
  | cons k ts =>
    have shown : phrase (k :: ts) ≠ [] := by
      intro none
      simpa using phrase_eq_nil sound none
    have trimmed := Text.trim_between (sound k (by simp)).gap_blank blank
      (head_phrase_shown sound) (last_phrase_shown sound) shown
    simpa [phrase] using trimmed

theorem phrase_tokens (t : Text) : phrase (tokens t) = Text.trim t := by
  have trimmed := trim_spelling (fun k => sound_of_mem_tokens (t := t)) (blanksAfter_blank t)
  rw [spelling_tokens] at trimmed
  exact trimmed.symm

theorem delimiter?_of_isBlank {c : Char} (blank : Text.isBlank c = true) : delimiter? c = none := by
  unfold delimiter?
  split
  all_goals first | rfl | exact absurd blank (by decide)

-- A delimiter ends the token before it, whatever comes after.
theorem tokensFrom_delimiter {c : Char} {k : Kind} (isDelimiter : delimiter? c = some k)
    (shown : Text.isBlank c = false) (t u gap run : Text) :
    (tokensFrom gap run (t ++ c :: u)).1 =
      (tokensFrom gap run t).1 ++ ⟨(tokensFrom gap run t).2, k, [c]⟩ :: tokens u := by
  induction t generalizing gap run with
  | nil =>
    by_cases started : run = [] <;>
      simp [tokensFrom, shown, isDelimiter, started, tokens]
  | cons d t ih =>
    by_cases hb : Text.isBlank d = true
    · by_cases started : run = [] <;> simp [tokensFrom, hb, started, ih]
    · cases hk : delimiter? d with
      | none => simp [tokensFrom, hb, hk, ih]
      | some j => by_cases started : run = [] <;> simp [tokensFrom, hb, hk, started, ih]

theorem tokensFrom_append_blank {c : Char} (blank : Text.isBlank c = true) (t gap run : Text) :
    (tokensFrom gap run (t ++ [c])).1 = (tokensFrom gap run t).1 := by
  induction t generalizing gap run with
  | nil => by_cases started : run = [] <;> simp [tokensFrom, blank, started]
  | cons d t ih =>
    by_cases hb : Text.isBlank d = true
    · by_cases started : run = [] <;> simp [tokensFrom, hb, started, ih]
    · cases hk : delimiter? d with
      | none => simp [tokensFrom, hb, hk, ih]
      | some j => by_cases started : run = [] <;> simp [tokensFrom, hb, hk, started, ih]

theorem tokens_hash (t u : Text) : ∃ gap,
    tokens (t ++ " #".toList ++ u) = tokens t ++ ⟨gap, .hash, ['#']⟩ :: tokens u := by
  have cut := tokensFrom_delimiter (c := '#') rfl (by decide) (t ++ [' ']) u [] []
  rw [tokensFrom_append_blank (by decide)] at cut
  exact ⟨_, by simpa [tokens] using cut⟩

end TypeTerm

end DocHarvest
