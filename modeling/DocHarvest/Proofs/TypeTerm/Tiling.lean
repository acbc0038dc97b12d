import DocHarvest.Memo
import DocHarvest.Proofs.Text.Parts
import DocHarvest.Proofs.TypeTerm.Longest

set_option autoImplicit false

namespace DocHarvest

namespace TypeTerm

def Token.Lexed (t : Token) : Prop :=
  (∃ c, delimiter? c = some t.kind ∧ t.text = [c]) ∨
    (t.kind = wordKind t.text ∧ ∀ c ∈ t.text, delimiter? c = none)

theorem runToken_lexed {gap run : Text} (plain : ∀ c ∈ run, delimiter? c = none) :
    (runToken gap run).Lexed :=
  .inr ⟨rfl, by simpa [runToken] using plain⟩

theorem tokensFrom_lexed (t gap run : Text) (plain : ∀ c ∈ run, delimiter? c = none) :
    ∀ k ∈ (tokensFrom gap run t).1, k.Lexed := by
  induction t generalizing gap run with
  | nil =>
    by_cases started : run = []
    · simp [tokensFrom, started]
    · simpa [tokensFrom, started] using runToken_lexed plain
  | cons c t ih =>
    by_cases blank : Text.isBlank c = true
    · by_cases started : run = []
      · simpa [tokensFrom, blank, started] using ih (c :: gap) [] (by simp)
      · have next := ih [c] [] (by simp)
        simpa [tokensFrom, blank, started, runToken_lexed plain] using next
    · cases found : delimiter? c with
      | none =>
        have longer := ih gap (c :: run) (by simpa [found] using plain)
        simpa [tokensFrom, blank, found] using longer
      | some k =>
        have next := ih [] [] (by simp)
        have single (g : Text) : Token.Lexed ⟨g, k, [c]⟩ := .inl ⟨c, found, rfl⟩
        by_cases started : run = []
        · simpa [tokensFrom, blank, found, started, single] using next
        · simpa [tokensFrom, blank, found, started, single, runToken_lexed plain] using next

theorem eq_hash_of_delimiter? {c : Char} (found : delimiter? c = some .hash) : c = '#' := by
  unfold delimiter? at found
  split at found <;> simp_all

theorem wordKind_ne_hash (run : Text) : wordKind run ≠ .hash := by
  unfold wordKind
  split <;> simp

theorem text_of_hash {t : Text} {k : Token} (member : k ∈ tokens t) (hash : k.kind = .hash) :
    k.text = ['#'] := by
  rcases tokensFrom_lexed t [] [] (by simp) k member with ⟨c, found, text⟩ | ⟨kind, _⟩
  · rw [hash] at found
    rw [text, eq_hash_of_delimiter? found]
  · exact absurd (kind.symm.trans hash) (wordKind_ne_hash _)

theorem exists_gap {ts : List Token} (sound : ∀ t ∈ ts, t.Sound) :
    ∃ gap, (∀ c ∈ gap, Text.isBlank c = true) ∧ spelling ts = gap ++ phrase ts := by
  cases ts with
  | nil => exact ⟨[], by simp, rfl⟩
  | cons t ts => exact ⟨t.gap, (sound t (by simp)).gap_blank, by simp [phrase]⟩

end TypeTerm

open TypeTerm

namespace Tail

-- Blanks, a type, blanks, at most one `#`, blanks, a description, blanks.
def Tiles (t type description : Text) : Prop :=
  ∃ w₀ w₁ hash w₂ w₃ : Text, (∀ w ∈ [w₀, w₁, w₂, w₃], ∀ c ∈ w, Text.isBlank c = true) ∧
    (hash = [] ∨ hash = ['#']) ∧ t = w₀ ++ type ++ w₁ ++ hash ++ w₂ ++ description ++ w₃

theorem exists_parts {t : Text} {rest : List Token} (inside : ∀ k ∈ rest, k ∈ tokens t) :
    ∃ w₁ hash w₂ : Text, (∀ w ∈ [w₁, w₂], ∀ c ∈ w, Text.isBlank c = true) ∧
      (hash = [] ∨ hash = ['#']) ∧ spelling rest = w₁ ++ hash ++ w₂ ++ descriptionOf rest := by
  have sound : ∀ k ∈ rest, k.Sound := fun k member => sound_of_mem_tokens (inside k member)
  cases rest with
  | nil => exact ⟨[], [], [], by simp, .inl rfl, rfl⟩
  | cons k rest =>
    by_cases hash : k.kind = .hash
    · obtain ⟨gap, blank, spelled⟩ := exists_gap fun t member =>
        sound t (List.mem_cons_of_mem k member)
      have text := text_of_hash (inside k (by simp)) hash
      refine ⟨k.gap, ['#'], gap, ?_, .inr rfl, ?_⟩
      · simpa using ⟨(sound k (by simp)).gap_blank, blank⟩
      · simp [descriptionOf, hash, text, spelled]
    · refine ⟨k.gap, [], [], ?_, .inl rfl, ?_⟩
      · simpa using (sound k (by simp)).gap_blank
      · simp [descriptionOf, hash, phrase]

theorem parse_tiles {t : Text} {tail : Tail} (parsed : parse t = .ok tail) :
    Tiles t tail.type tail.description := by
  obtain ⟨r, read, rfl⟩ := parse_eq_ok_iff.mp parsed
  have split := (complete_of_readTerm read).1
  have sound := sound_of_split split
  obtain ⟨w₀, before, taken⟩ := exists_gap fun k member => sound k (List.mem_append_left _ member)
  have inside : ∀ k ∈ r.rest, k ∈ tokens t := fun k member => by simp [split, member]
  obtain ⟨w₁, hash, w₂, between, at_most, rest⟩ := exists_parts inside
  refine ⟨w₀, w₁, hash, w₂, blanksAfter t, ?_, at_most, ?_⟩
  · simp only [List.forall_mem_cons] at between ⊢
    exact ⟨before, between.1, between.2.1, blanksAfter_blank t, by simp⟩
  · calc
      t = spelling (tokens t) ++ blanksAfter t := (spelling_tokens t).symm
      _ = _ := by simp [split, taken, rest]

theorem splitAtHash_append {front : Text} (first : '#' ∉ front) (back : Text) :
    splitAtHash (front ++ '#' :: back) =
      ⟨Text.trim front, Text.trim back, (Text.trim front).contains '?'⟩ := by
  have before := Text.bne_of_not_mem first
  simp [splitAtHash, List.takeWhile_append_of_pos before, List.dropWhile_append_of_pos before]

theorem splitAtHash_of_not_mem {t : Text} (none : '#' ∉ t) :
    splitAtHash t = ⟨Text.trim t, [], (Text.trim t).contains '?'⟩ := by
  have all := Text.bne_of_not_mem none
  have nothing : t.dropWhile (· != '#') = [] := List.dropWhile_eq_nil_iff.mpr all
  have empty : Text.trim [] = [] := rfl
  simp [splitAtHash, List.takeWhile_eq_self_iff.mpr all, nothing, empty]

theorem splitAtHash_tiles (t : Text) :
    Tiles t (splitAtHash t).type (splitAtHash t).description := by
  by_cases hash : '#' ∈ t
  · obtain ⟨front, back, rfl, first⟩ := List.eq_append_cons_of_mem hash
    rw [splitAtHash_append first]
    obtain ⟨w₀, w₁, before, between, type⟩ := Text.exists_trim front
    obtain ⟨w₂, w₃, between', after, description⟩ := Text.exists_trim back
    refine ⟨w₀, w₁, ['#'], w₂, w₃, ?_, .inr rfl, ?_⟩
    · simpa only [List.forall_mem_cons] using ⟨before, between, between', after, by simp⟩
    · have joined := congrArg₂ (fun x y => x ++ '#' :: y) type description
      simpa using joined
  · rw [splitAtHash_of_not_mem hash]
    obtain ⟨w₀, w₁, before, after, type⟩ := Text.exists_trim t
    refine ⟨w₀, w₁, [], [], [], ?_, .inl rfl, by simpa using type⟩
    simpa only [List.forall_mem_cons] using ⟨before, after, by simp, by simp, by simp⟩

-- A type that is followed by a `#` and holds none itself ends before the first `#` of the text.
theorem splitAtHash_of_parse {t : Text} {tail : Tail} (parsed : parse t = .ok tail)
    (shown : tail.type ≠ []) (no_hash : '#' ∉ tail.type) {taken rest : List Token} {next : Token}
    (split : tokens t = taken ++ next :: rest) (type : phrase taken = tail.type)
    (hash : next.kind = .hash) :
    (splitAtHash t).type = tail.type ∧ (splitAtHash t).description = tail.description := by
  obtain ⟨r, read, rfl⟩ := parse_eq_ok_iff.mp parsed
  have read_split := (complete_of_readTerm read).1
  have sound := sound_of_split split
  obtain rfl : r.taken = taken :=
    taken_eq_of_phrase_eq (sound_of_split read_split) (read_split.symm.trans split) type.symm
  have rest_eq : r.rest = next :: rest := List.append_cancel_left (read_split.symm.trans split)
  have taken_sound : ∀ k ∈ r.taken, k.Sound := fun k member => sound k (by simp [member])
  have rest_sound : ∀ k ∈ rest, k.Sound := fun k member => sound k (by simp [member])
  have gap_blank := (sound next (by simp)).gap_blank
  have text : next.text = ['#'] := text_of_hash (t := t) (by simp [split]) hash
  have whole : t = (spelling r.taken ++ next.gap) ++ '#' :: (spelling rest ++ blanksAfter t) := by
    calc
      t = spelling (tokens t) ++ blanksAfter t := (spelling_tokens t).symm
      _ = _ := by simp [split, text]
  have first : '#' ∉ spelling r.taken ++ next.gap := by
    obtain ⟨gap, blank, spelled⟩ := exists_gap taken_sound
    have no_blank {w : Text} (blank : ∀ c ∈ w, Text.isBlank c = true) : '#' ∉ w :=
      fun member => absurd (blank '#' member) (by decide)
    simp [spelled, no_blank blank, no_blank gap_blank, no_hash]
  rw [whole, splitAtHash_append first, trim_spelling taken_sound gap_blank,
    trim_spelling rest_sound (blanksAfter_blank t), rest_eq]
  exact ⟨rfl, by simp [descriptionOf, hash]⟩

theorem trim_descriptionOf {ts : List Token} (sound : ∀ t ∈ ts, t.Sound) :
    Text.trim (descriptionOf ts) = descriptionOf ts := by
  cases ts with
  | nil => rfl
  | cons t ts =>
    rw [descriptionOf]
    split
    · exact trim_phrase fun k member => sound k (List.mem_cons_of_mem t member)
    · exact trim_phrase sound

theorem ofText_trimmed (t : Text) : Text.trim (ofText t).type = (ofText t).type ∧
    Text.trim (ofText t).description = (ofText t).description := by
  unfold ofText
  split
  · next tail parsed =>
    obtain ⟨r, read, rfl⟩ := parse_eq_ok_iff.mp parsed
    have sound := sound_of_split (complete_of_readTerm read).1
    exact ⟨trim_phrase fun k member => sound k (List.mem_append_left _ member),
      trim_descriptionOf fun k member => sound k (List.mem_append_right _ member)⟩
  · exact ⟨Text.trim_trim _, Text.trim_trim _⟩

theorem ofText_tiles (t : Text) : Tiles t (ofText t).type (ofText t).description := by
  unfold ofText
  split
  · next tail parsed => exact parse_tiles parsed
  · exact splitAtHash_tiles t

theorem mem_of_mem_description {t : Text} {c : Char} (member : c ∈ (ofText t).description) :
    c ∈ t := by
  obtain ⟨_, _, _, _, _, _, _, whole⟩ := ofText_tiles t
  rw [whole]
  simp [member]

/-- Reading a tail loses no text: a type and a description without outer blanks stand in it, and
the rest are blanks and at most one `#` between the two. Where a type that holds no `#` is read and
a `#` follows, a cut at the first `#` gives the same type and description. -/
theorem reader_loses_no_text (t : Text) :
    let tail := ((Memo.empty : Memo Text Tail).ask ofText t).1
    Tiles t tail.type tail.description ∧ Text.trim tail.type = tail.type ∧
      Text.trim tail.description = tail.description ∧
      ∀ parsed, parse t = .ok parsed → parsed.type ≠ [] → '#' ∉ parsed.type →
        ∀ taken next rest, tokens t = taken ++ next :: rest → phrase taken = parsed.type →
          next.kind = .hash → (splitAtHash t).type = parsed.type ∧
            (splitAtHash t).description = parsed.description := by
  intro tail
  refine ⟨ofText_tiles t, (ofText_trimmed t).1, (ofText_trimmed t).2, ?_⟩
  intro parsed ok shown no_hash taken next rest split type hash
  exact splitAtHash_of_parse ok shown no_hash split type hash

theorem reader_loses_no_text_sample :
    let t := " fun(a: b): c|d # e # f".toList
    parse t = .ok ⟨"fun(a: b): c|d".toList, "e # f".toList, false⟩ ∧
      (splitAtHash t).type = "fun(a: b): c|d".toList ∧
      (splitAtHash t).description = "e # f".toList := by
  intro t
  have parsed : parse t = .ok ⟨"fun(a: b): c|d".toList, "e # f".toList, false⟩ := by decide
  have split : tokens t = (tokens t).take 10 ++ ⟨[' '], .hash, ['#']⟩ :: (tokens t).drop 11 := by
    decide
  exact ⟨parsed, (reader_loses_no_text t).2.2.2 _ parsed (by decide) (by decide) _ _ _ split
    (by decide) rfl⟩

end Tail

end DocHarvest
