import DocHarvest.Proofs.Text.Units
import DocHarvest.Proofs.TypeTerm.Spelling
import Mathlib.Data.List.Pairwise

set_option autoImplicit false

namespace DocHarvest

namespace TypeTerm

section Rules

def delimiterKinds : List (Char × Kind) :=
  [('#', .hash), ('(', .opening .round), (')', .closing .round), ('<', .opening .angle),
   ('>', .closing .angle), ('[', .opening .square), (']', .closing .square),
   ('\x7b', .opening .curly), ('\x7d', .closing .curly), (',', .comma), (':', .colon),
   ('|', .pipe), ('?', .question)]

def delimiters : Text := delimiterKinds.map Prod.fst

def isPlain (c : Char) : Bool := !Text.isBlank c && !delimiters.contains c

inductive Pattern where
  | blanks
  | single (c : Char)
  | keyword
  | run

/-- What a pattern takes from the front of a text, all it can. A pattern that takes nothing does not
match. -/
def Pattern.taken : Pattern → Text → Text
  | .blanks, t => t.takeWhile Text.isBlank
  | .single c, t => if t.head? = some c then [c] else []
  | .keyword, t => if "fun".toList <+: t then "fun".toList else []
  | .run, t => t.takeWhile isPlain

/-- What a rule takes is skipped if it has no kind. It gives way to `longer` if that takes more. -/
structure LexRule where
  kind : Option Kind
  pattern : Pattern
  longer : Option (Kind × Pattern)

def blankRule : LexRule := ⟨none, .blanks, none⟩

def singleRule (entry : Char × Kind) : LexRule := ⟨some entry.2, .single entry.1, none⟩

def keywordRule : LexRule := ⟨some .funKeyword, .keyword, some (.word, .run)⟩

def wordRule : LexRule := ⟨some .word, .run, none⟩

def lexRules : List LexRule :=
  blankRule :: delimiterKinds.map singleRule ++ [keywordRule, wordRule]

def LexRule.read? (r : LexRule) (t : Text) : Option (Option Kind × Text) :=
  let taken := r.pattern.taken t
  if taken = [] then none
  else
    match r.longer with
    | none => some (r.kind, taken)
    | some (k, p) =>
      if taken.length < (p.taken t).length then some (some k, p.taken t) else some (r.kind, taken)

def firstRead? (t : Text) : Option (Option Kind × Text) := lexRules.findSome? (·.read? t)

theorem LexRule.read?_ne_nil {r : LexRule} {t : Text} {kind : Option Kind} {read : Text}
    (found : r.read? t = some (kind, read)) : read ≠ [] := by
  unfold LexRule.read? at found
  dsimp only at found
  split at found
  · cases found
  · next shown =>
    split at found
    · cases found
      exact shown
    · split at found
      · next more =>
        cases found
        exact List.ne_nil_of_length_pos (Nat.zero_lt_of_lt more)
      · cases found
        exact shown

theorem firstRead?_ne_nil {t : Text} {kind : Option Kind} {read : Text}
    (found : firstRead? t = some (kind, read)) : read ≠ [] := by
  obtain ⟨r, _, taken⟩ := List.exists_of_findSome?_eq_some found
  exact r.read?_ne_nil taken

structure Placed where
  start : Nat
  kind : Kind
  text : Text
  deriving DecidableEq

def lexFrom (start : Nat) (t : Text) : Option (List Placed) :=
  if t = [] then some []
  else
    match _h : firstRead? t with
    | none => none
    | some (kind, read) =>
      (lexFrom (start + Text.unitLength read) (t.drop read.length)).map
        ((kind.map fun k => ⟨start, k, read⟩).toList ++ ·)
termination_by t.length
decreasing_by
  have shown := List.length_pos_of_ne_nil (firstRead?_ne_nil _h)
  have some_text := List.length_pos_of_ne_nil ‹_›
  rw [List.length_drop]
  omega

theorem delimiter?_eq_lookup (c : Char) : delimiter? c = delimiterKinds.lookup c := by
  unfold delimiter?
  split
  case h_14 =>
    rw [eq_comm, List.lookup_eq_none_iff]
    simp_all [delimiterKinds]
  all_goals rfl

theorem mem_delimiters_iff {c : Char} : c ∈ delimiters ↔ ∃ k, delimiter? c = some k := by
  rw [delimiter?_eq_lookup, ← Option.isSome_iff_exists, List.lookup_isSome_iff]
  simp [delimiters]

theorem isPlain_iff {c : Char} :
    isPlain c = true ↔ Text.isBlank c = false ∧ delimiter? c = none := by
  have absent : c ∉ delimiters ↔ delimiter? c = none := by
    rw [mem_delimiters_iff, Option.eq_none_iff_forall_ne_some, not_exists]
  simp [isPlain, absent]

theorem findSome?_singleRule (table : List (Char × Kind)) (c : Char) (t : Text) :
    (table.map singleRule).findSome? (·.read? (c :: t)) =
      (table.lookup c).map fun k => (some k, [c]) := by
  induction table with
  | nil => rfl
  | cons entry table ih =>
    obtain ⟨d, k⟩ := entry
    rw [List.map_cons, List.findSome?_cons, ih]
    by_cases same : c = d
    · simp [same, singleRule, LexRule.read?, Pattern.taken]
    · have differ : (c == d) = false := by simpa using same
      simp [singleRule, LexRule.read?, Pattern.taken, same, List.lookup_cons, differ]

theorem firstRead?_of_blank {c : Char} (blank : Text.isBlank c = true) (t : Text) :
    firstRead? (c :: t) = some (none, (c :: t).takeWhile Text.isBlank) := by
  simp [firstRead?, lexRules, blankRule, LexRule.read?, Pattern.taken, blank]

theorem firstRead?_of_shown {c : Char} (shown : Text.isBlank c = false) (t : Text) :
    firstRead? (c :: t) = ((delimiter? c).map fun k => (some k, [c])).or
      ((keywordRule.read? (c :: t)).or (wordRule.read? (c :: t))) := by
  have skipped : blankRule.read? (c :: t) = none := by
    simp [blankRule, LexRule.read?, Pattern.taken, shown]
  rw [firstRead?, lexRules, List.cons_append, List.findSome?_cons, skipped, List.findSome?_append,
    findSome?_singleRule, ← delimiter?_eq_lookup]
  simp only [List.findSome?_cons, List.findSome?_nil]
  cases keywordRule.read? (c :: t) <;> cases wordRule.read? (c :: t) <;> rfl

theorem wordRule_read? {t : Text} (some_run : t.takeWhile isPlain ≠ []) :
    wordRule.read? t = some (some .word, t.takeWhile isPlain) := by
  simp [wordRule, LexRule.read?, Pattern.taken, some_run]

theorem takeWhile_isPlain_keyword (rest : Text) :
    ("fun".toList ++ rest).takeWhile isPlain = "fun".toList ++ rest.takeWhile isPlain :=
  List.takeWhile_append_of_pos (List.all_eq_true.mp (by decide))

-- The keyword gives way to a run that goes on behind it.
theorem keywordRule_read? (rest : Text) :
    keywordRule.read? ("fun".toList ++ rest) =
      some (some (wordKind ("fun".toList ++ rest.takeWhile isPlain)),
        "fun".toList ++ rest.takeWhile isPlain) := by
  have leads : "fun".toList <+: "fun".toList ++ rest := List.prefix_append _ _
  simp only [keywordRule, LexRule.read?, Pattern.taken, takeWhile_isPlain_keyword, leads, if_true]
  cases rest.takeWhile isPlain <;> simp [wordKind]

theorem firstRead?_of_plain {c : Char} (plain : isPlain c = true) (t : Text) :
    firstRead? (c :: t) = some (some (wordKind ((c :: t).takeWhile isPlain)),
      (c :: t).takeWhile isPlain) := by
  obtain ⟨shown, other⟩ := isPlain_iff.mp plain
  have some_run : (c :: t).takeWhile isPlain ≠ [] := by simp [plain]
  rw [firstRead?_of_shown shown, other, wordRule_read? some_run]
  by_cases leads : "fun".toList <+: c :: t
  · obtain ⟨rest, whole⟩ := leads
    rw [← whole, keywordRule_read?, takeWhile_isPlain_keyword]
    rfl
  · have absent : keywordRule.read? (c :: t) = none := by
      simp only [keywordRule, LexRule.read?, Pattern.taken, leads, if_false, if_true]
    have word : wordKind ((c :: t).takeWhile isPlain) = .word := by
      rw [wordKind, if_neg]
      intro same
      exact leads (same ▸ List.takeWhile_prefix isPlain)
    rw [absent, word]
    rfl

theorem isBlank_of_delimiter? {c : Char} {k : Kind} (found : delimiter? c = some k) :
    Text.isBlank c = false := by
  cases blank : Text.isBlank c with
  | false => rfl
  | true => simp [delimiter?_of_isBlank blank] at found

theorem isPlain_of_delimiter? {c : Char} {k : Kind} (found : delimiter? c = some k) :
    isPlain c = false := by
  cases plain : isPlain c with
  | false => rfl
  | true => simp [(isPlain_iff.mp plain).2] at found

theorem firstRead?_of_delimiter {c : Char} {k : Kind} (found : delimiter? c = some k) (t : Text) :
    firstRead? (c :: t) = some (some k, [c]) := by
  rw [firstRead?_of_shown (isBlank_of_delimiter? found), found]
  rfl

inductive Reads : Option Kind → Text → Text → Prop where
  | blanks {w rest : Text} : (∀ c ∈ w, Text.isBlank c = true) → Reads none w rest
  | delimiter {c : Char} {k : Kind} {rest : Text} : delimiter? c = some k → Reads (some k) [c] rest
  | run {run rest : Text} : run ≠ [] → (∀ c ∈ run, isPlain c = true) →
      (∀ c ∈ rest.head?, isPlain c = false) → Reads (some (wordKind run)) run rest

theorem exists_front {p : Char → Bool} {c : Char} (first : p c = true) (t : Text) :
    ∃ front rest, c :: t = front ++ rest ∧ (c :: t).takeWhile p = front ∧ front ≠ [] ∧
      (∀ d ∈ front, p d = true) ∧ ∀ d ∈ rest.head?, p d = false := by
  refine ⟨_, (c :: t).dropWhile p, List.takeWhile_append_dropWhile.symm, rfl, by simp [first],
    List.all_eq_true.mp List.all_takeWhile, ?_⟩
  intro d head
  have stops := List.head?_dropWhile_not p (c :: t)
  rwa [Option.mem_def.mp head] at stops

theorem exists_reads (c : Char) (t : Text) : ∃ kind read rest, c :: t = read ++ rest ∧
    firstRead? (c :: t) = some (kind, read) ∧ Reads kind read rest := by
  by_cases blank : Text.isBlank c = true
  · obtain ⟨w, rest, split, taken, _, all, _⟩ := exists_front blank t
    exact ⟨none, w, rest, split, taken ▸ firstRead?_of_blank blank t, .blanks all⟩
  · cases found : delimiter? c with
    | some k => exact ⟨some k, [c], t, rfl, firstRead?_of_delimiter found t, .delimiter found⟩
    | none =>
      have plain := isPlain_iff.mpr ⟨by simpa using blank, found⟩
      obtain ⟨run, rest, split, taken, shown, all, ends⟩ := exists_front plain t
      exact ⟨_, run, rest, split, taken ▸ firstRead?_of_plain plain t, .run shown all ends⟩

theorem reads_induction {motive : Text → Prop} (nil : motive [])
    (step : ∀ kind read rest, firstRead? (read ++ rest) = some (kind, read) →
      Reads kind read rest → motive rest → motive (read ++ rest)) (t : Text) : motive t := by
  induction count : t.length using Nat.strong_induction_on generalizing t with
  | _ n ih =>
    cases t with
    | nil => exact nil
    | cons c t =>
      obtain ⟨kind, read, rest, split, found, reads⟩ := exists_reads c t
      have taken := List.length_pos_of_ne_nil (firstRead?_ne_nil found)
      rw [split] at found count ⊢
      rw [List.length_append] at count
      exact step kind read rest found reads (ih _ (by omega) rest rfl)

end Rules

section Places

theorem tokensFrom_blanks {w : Text} (blank : ∀ c ∈ w, Text.isBlank c = true) (gap rest : Text) :
    tokensFrom gap [] (w ++ rest) = tokensFrom (w.reverse ++ gap) [] rest := by
  induction w generalizing gap with
  | nil => rfl
  | cons c w ih =>
    have first := blank c (by simp)
    have later := ih (fun d member => blank d (by simp [member])) (c :: gap)
    simp [tokensFrom, first, later]

theorem tokensFrom_run {r : Text} (plain : ∀ c ∈ r, isPlain c = true) (gap run rest : Text) :
    tokensFrom gap run (r ++ rest) = tokensFrom gap (r.reverse ++ run) rest := by
  induction r generalizing run with
  | nil => rfl
  | cons c r ih =>
    obtain ⟨shown, other⟩ := isPlain_iff.mp (plain c (by simp))
    have later := ih (fun d member => plain d (by simp [member])) (c :: run)
    simp [tokensFrom, shown, other, later]

theorem tokensFrom_run_end {run rest : Text} (started : run ≠ [])
    (ends : ∀ c ∈ rest.head?, isPlain c = false) (gap : Text) :
    (tokensFrom gap run rest).1 = runToken gap run :: tokens rest := by
  cases rest with
  | nil => simp [tokensFrom, tokens, started]
  | cons c rest =>
    have stops := ends c (by simp)
    by_cases blank : Text.isBlank c = true
    · simp [tokensFrom, tokens, blank, started]
    · cases found : delimiter? c with
      | none => simp [isPlain_iff.mpr ⟨by simpa using blank, found⟩] at stops
      | some k => simp [tokensFrom, tokens, blank, found, started]

def place (start : Nat) : List Token → List Placed
  | [] => []
  | k :: ks =>
    let here := start + Text.unitLength k.gap
    ⟨here, k.kind, k.text⟩ :: place (here + Text.unitLength k.text) ks

def placed (t : Text) : List Placed := place 0 (tokens t)

theorem lexFrom_of_read {kind : Option Kind} {read rest : Text}
    (found : firstRead? (read ++ rest) = some (kind, read)) (start : Nat) :
    lexFrom start (read ++ rest) = (lexFrom (start + Text.unitLength read) rest).map
      ((kind.map fun k => ⟨start, k, read⟩).toList ++ ·) := by
  have some_text : read ++ rest ≠ [] := by simp [firstRead?_ne_nil found]
  rw [lexFrom, if_neg some_text]
  split
  · next none_found =>
    rw [found] at none_found
    cases none_found
  · next kind' read' found' =>
    rw [found] at found'
    cases found'
    rw [List.drop_left]

theorem lexFrom_eq_place (t gap : Text) (start : Nat) :
    lexFrom (start + Text.unitLength gap.reverse) t =
      some (place start (tokensFrom gap [] t).1) := by
  induction t using reads_induction generalizing gap start with
  | nil => simp [lexFrom, tokensFrom, place]
  | step kind read rest found reads ih =>
    have fresh (start : Nat) : lexFrom start rest = some (place start (tokens rest)) := by
      simpa [tokens] using ih [] start
    rw [lexFrom_of_read found]
    cases reads with
    | blanks all =>
      rw [tokensFrom_blanks all, ← ih (read.reverse ++ gap) start]
      simp [Nat.add_assoc]
    | delimiter isDelimiter =>
      have shown := isBlank_of_delimiter? isDelimiter
      simp [fresh, tokensFrom, shown, isDelimiter, place, tokens]
    | run shown plain ends =>
      have token := tokensFrom_run_end (List.reverse_ne_nil_iff.mpr shown) ends gap
      rw [fresh, tokensFrom_run plain, List.append_nil, token]
      simp [runToken, place]

theorem lexFrom_eq_placed (t : Text) : lexFrom 0 t = some (placed t) := by
  have lexed := lexFrom_eq_place t [] 0
  simpa [placed, tokens] using lexed

theorem place_append (start : Nat) (ks ls : List Token) :
    place start (ks ++ ls) =
      place start ks ++ place (start + Text.unitLength (spelling ks)) ls := by
  induction ks generalizing start with
  | nil => simp [place, spelling]
  | cons k ks ih => simp [place, ih, Nat.add_assoc]

theorem mem_place {start : Nat} {ks : List Token} {a : Placed} (member : a ∈ place start ks) :
    ∃ before k after, ks = before ++ k :: after ∧
      a = ⟨start + Text.unitLength (spelling before ++ k.gap), k.kind, k.text⟩ := by
  induction ks generalizing start with
  | nil => cases member
  | cons k ks ih =>
    rcases List.mem_cons.mp member with rfl | later
    · exact ⟨[], k, ks, rfl, by simp [spelling]⟩
    · obtain ⟨before, l, after, rfl, rfl⟩ := ih later
      exact ⟨k :: before, l, after, rfl, by simp [Nat.add_assoc]⟩

def Placed.stop (a : Placed) : Nat := a.start + Text.unitLength a.text

def Placed.Covers (a : Placed) (i : Nat) : Prop := a.start ≤ i ∧ i < a.stop

theorem le_start_of_mem_place {start : Nat} {ks : List Token} {a : Placed}
    (member : a ∈ place start ks) : start ≤ a.start := by
  obtain ⟨_, _, _, _, rfl⟩ := mem_place member
  exact Nat.le_add_right _ _

theorem place_ordered (start : Nat) (ks : List Token) :
    (place start ks).Pairwise fun a b => a.stop ≤ b.start := by
  induction ks generalizing start with
  | nil => exact .nil
  | cons k ks ih =>
    refine List.pairwise_cons.mpr ⟨fun b later => ?_, ih _⟩
    exact le_start_of_mem_place later

theorem eq_of_covers {as : List Placed} (ordered : as.Pairwise fun a b => a.stop ≤ b.start)
    {a b : Placed} (first : a ∈ as) (second : b ∈ as) {i : Nat} (covers : a.Covers i)
    (covers' : b.Covers i) : a = b := by
  by_contra differ
  have apart : as.Pairwise fun a b => ¬ (a.Covers i ∧ b.Covers i) := by
    apply ordered.imp
    rintro a b order ⟨⟨_, before⟩, behind, _⟩
    omega
  have : Std.Symm fun a b : Placed => ¬ (a.Covers i ∧ b.Covers i) := ⟨fun _ _ => mt And.symm⟩
  exact apart.forall first second differ ⟨covers, covers'⟩

-- What a unit of the text belongs to: blanks to no token, all else to one.
theorem exists_covers_iff {ks : List Token} (sound : ∀ k ∈ ks, k.Sound) {w : Text}
    (blank : ∀ c ∈ w, Text.isBlank c = true) (start : Nat) {i u : Nat}
    (unit : (Text.units (spelling ks ++ w))[i]? = some u) :
    (∃ a ∈ place start ks, a.Covers (start + i)) ↔ Text.isBlankUnit u = false := by
  induction ks generalizing start i with
  | nil =>
    have listed : u ∈ Text.units w := List.mem_of_getElem? (by simpa [spelling] using unit)
    simp [Text.isBlankUnit_of_mem_units blank listed, place]
  | cons k ks ih =>
    have k_sound := sound k (by simp)
    let here := start + Text.unitLength k.gap
    let next := here + Text.unitLength k.text
    have split : (∃ a ∈ place start (k :: ks), a.Covers (start + i)) ↔
        (here ≤ start + i ∧ start + i < next) ∨ ∃ a ∈ place next ks, a.Covers (start + i) := by
      simp [place, Placed.Covers, Placed.stop, here, next]
    have later : (∃ a ∈ place next ks, a.Covers (start + i)) → next ≤ start + i := by
      intro covered
      obtain ⟨a, member, covers⟩ := covered
      exact Nat.le_trans (le_start_of_mem_place member) covers.1
    have text_end : next = start + (Text.units k.gap).length + (Text.units k.text).length := rfl
    have text_start : here = start + (Text.units k.gap).length := rfl
    rw [split]
    rw [spelling_cons, List.append_assoc, List.append_assoc, Text.units_append, Text.units_append,
      List.getElem?_append, List.getElem?_append] at unit
    split at unit
    · rw [Text.isBlankUnit_of_mem_units k_sound.gap_blank (List.mem_of_getElem? unit)]
      simp only [Bool.true_eq_false, iff_false]
      rintro (⟨reached, _⟩ | behind)
      · omega
      · have := later behind
        omega
    · split at unit
      · rw [Text.isBlankUnit_of_mem_units k_sound.text_shown (List.mem_of_getElem? unit)]
        simp only [iff_true]
        exact .inl ⟨by omega, by omega⟩
      · have rest := ih (fun l member => sound l (by simp [member])) next unit
        have same : next + (i - (Text.units k.gap).length - (Text.units k.text).length) =
            start + i := by
          omega
        rw [same] at rest
        rw [← rest]
        exact or_iff_right (by omega)

structure MaximalRun (before run after : Text) : Prop where
  ne_nil : run ≠ []
  plain : ∀ c ∈ run, isPlain c = true
  starts : ∀ c ∈ before.getLast?, isPlain c = false
  ends : ∀ c ∈ after.head?, isPlain c = false

-- A run ends where no run goes on, so none starts in the middle of one.
theorem shape_of_lexFrom {before t : Text} {as : List Placed}
    (lexed : lexFrom (Text.unitLength before) t = some as)
    (parted : (∀ c ∈ before.getLast?, isPlain c = false) ∨ ∀ c ∈ t.head?, isPlain c = false) :
    ∀ a ∈ as, ∃ front back, before ++ t = front ++ a.text ++ back ∧
      Text.unitLength front = a.start ∧ ((∃ c, delimiter? c = some a.kind ∧ a.text = [c]) ∨
        a.kind = wordKind a.text ∧ MaximalRun front a.text back) := by
  induction t using reads_induction generalizing before as with
  | nil =>
    have none_left : [] = as := by simpa [lexFrom] using lexed
    simp [← none_left]
  | step kind read rest found reads ih =>
    rw [lexFrom_of_read found, ← Text.unitLength_append] at lexed
    obtain ⟨later, lexed_rest, rfl⟩ := Option.map_eq_some_iff.mp lexed
    have whole : before ++ read ++ rest = before ++ (read ++ rest) := List.append_assoc _ _ _
    have rest_shape := ih lexed_rest
    rw [whole] at rest_shape
    have last (shown : read ≠ []) : (before ++ read).getLast? = read.getLast? := by
      simp [List.getLast?_append, List.getLast?_eq_some_getLast shown]
    intro a member
    cases reads with
    | blanks all =>
      refine rest_shape (.inl fun c ends => ?_) a (by simpa using member)
      rw [last (firstRead?_ne_nil found)] at ends
      have blank := all c (List.mem_of_getLast? ends)
      simp [isPlain, blank]
    | delimiter isDelimiter =>
      rcases List.mem_cons.mp (by simpa using member) with rfl | after
      · exact ⟨before, rest, by simp, rfl, .inl ⟨_, isDelimiter, rfl⟩⟩
      · refine rest_shape (.inl fun c ends => ?_) a after
        rw [last (by simp)] at ends
        obtain rfl : _ = c := by simpa using ends
        exact isPlain_of_delimiter? isDelimiter
    | run shown plain ends =>
      rcases List.mem_cons.mp (by simpa using member) with rfl | after
      · refine ⟨before, rest, by simp, rfl, .inr ⟨rfl, shown, plain, ?_, ends⟩⟩
        rcases parted with before_ends | not_plain
        · exact before_ends
        · obtain ⟨d, more, rfl⟩ := List.exists_cons_of_ne_nil shown
          have other := not_plain d (by simp)
          simp [plain d (by simp)] at other
      · exact rest_shape (.inr ends) a after

theorem mem_placed_of_delimiter {before after : Text} {c : Char} {k : Kind}
    (found : delimiter? c = some k) :
    ⟨Text.unitLength before, k, [c]⟩ ∈ placed (before ++ c :: after) := by
  have cut := tokensFrom_delimiter found (isBlank_of_delimiter? found) before after [] []
  have spelled : Text.unitLength (spelling (tokens before)) + Text.unitLength (blanksAfter before) =
      Text.unitLength before := by
    rw [← Text.unitLength_append, spelling_tokens]
  rw [placed, tokens, cut, place_append, place]
  refine List.mem_append_right _ (List.mem_cons.mpr (.inl ?_))
  simp only [Placed.mk.injEq, and_true, Nat.zero_add]
  exact spelled.symm

end Places

/-- The rules read every text, and its tokens follow each other without overlap. A unit that is not
blank lies in one token, a blank one in none, so tokens and the gaps between them spell the text. A
delimiter is always a token of its own; every other token is a whole run, and the keyword is the run
`fun`. -/
theorem lexer_total_and_lossless (t : Text) :
    lexFrom 0 t = some (placed t) ∧
    ((placed t).Pairwise (fun a b => a.stop ≤ b.start) ∧ ∀ a ∈ placed t, a.start < a.stop) ∧
    (∀ i u, (Text.units t)[i]? = some u →
      (Text.isBlankUnit u = false → ∃! a, a ∈ placed t ∧ a.Covers i) ∧
      (Text.isBlankUnit u = true → ∀ a ∈ placed t, ¬ a.Covers i)) ∧
    (spelling (tokens t) ++ blanksAfter t = t ∧
      (∀ k ∈ tokens t, ∀ c ∈ k.gap, Text.isBlank c = true) ∧
      ∀ c ∈ blanksAfter t, Text.isBlank c = true) ∧
    (∀ before c after, t = before ++ c :: after → c ∈ delimiters →
      ∃ k, delimiter? c = some k ∧ ⟨Text.unitLength before, k, [c]⟩ ∈ placed t) ∧
    ∀ a ∈ placed t, ∃ before after, t = before ++ a.text ++ after ∧
      Text.unitLength before = a.start ∧
      ((∃ c ∈ delimiters, delimiter? c = some a.kind ∧ a.text = [c]) ∨
        MaximalRun before a.text after ∧
          a.kind = if a.text = "fun".toList then .funKeyword else .word) := by
  have ordered : (placed t).Pairwise fun a b => a.stop ≤ b.start := place_ordered _ _
  refine ⟨lexFrom_eq_placed t, ⟨ordered, ?_⟩, ?_, ?_, ?_, ?_⟩
  · intro a member
    obtain ⟨_, k, _, split, rfl⟩ := mem_place member
    have sound := sound_of_mem_tokens (t := t) (k := k) (by simp [split])
    exact Nat.lt_add_of_pos_right (Text.unitLength_pos sound.text_ne_nil)
  · intro i u unit
    rw [← spelling_tokens t] at unit
    have covered := exists_covers_iff (fun k => sound_of_mem_tokens) (blanksAfter_blank t) 0 unit
    rw [Nat.zero_add] at covered
    constructor
    · intro shown
      obtain ⟨a, member, covers⟩ := covered.mpr shown
      exact ⟨a, ⟨member, covers⟩, fun b other => eq_of_covers ordered other.1 member other.2 covers⟩
    · intro blank a member covers
      simp [covered.mp ⟨a, member, covers⟩] at blank
  · exact ⟨spelling_tokens t, fun k member => (sound_of_mem_tokens member).gap_blank,
      blanksAfter_blank t⟩
  · rintro before c after rfl member
    obtain ⟨k, found⟩ := mem_delimiters_iff.mp member
    exact ⟨k, found, mem_placed_of_delimiter found⟩
  · intro a member
    have lexed : lexFrom (Text.unitLength []) t = some (placed t) := lexFrom_eq_placed t
    obtain ⟨before, after, split, start, shape⟩ := shape_of_lexFrom lexed (.inl (by simp)) a member
    refine ⟨before, after, split, start, ?_⟩
    rcases shape with ⟨c, found, text⟩ | ⟨kind, run⟩
    · exact .inl ⟨c, mem_delimiters_iff.mpr ⟨_, found⟩, found, text⟩
    · exact .inr ⟨run, kind⟩

theorem lexer_total_and_lossless_sample :
    let t := "fun(😀), function".toList
    placed t = [⟨0, .funKeyword, "fun".toList⟩, ⟨3, .opening .round, ['(']⟩,
      ⟨4, .word, ['😀']⟩, ⟨6, .closing .round, [')']⟩, ⟨7, .comma, [',']⟩,
      ⟨9, .word, "function".toList⟩] ∧
    (∃! a, a ∈ placed t ∧ a.Covers 5) ∧ ∀ a ∈ placed t, ¬ a.Covers 8 := by
  intro t
  have units := (lexer_total_and_lossless t).2.2.1
  exact ⟨by decide, (units 5 0xDE00 (by decide)).1 (by decide),
    (units 8 0x20 (by decide)).2 (by decide)⟩

end TypeTerm
end DocHarvest
