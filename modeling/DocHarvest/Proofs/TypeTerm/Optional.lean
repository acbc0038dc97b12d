import DocHarvest.Proofs.TypeTerm.Longest

set_option autoImplicit false

namespace DocHarvest.TypeTerm

def Kind.weight : Kind → Int
  | .opening _ => 1
  | .closing _ => -1
  | _ => 0

@[simp] def depth : List Kind → Int
  | [] => 0
  | k :: ks => k.weight + depth ks

theorem Kind.weight_of_isInner {k : Kind} (inner : k.isInner = true) : k.weight = 0 := by
  cases k with
  | opening | closing => simp [isInner] at inner
  | _ => rfl

def Phase.depth : Phase → Int
  | .inside _ outer _ => outer.length + 1
  | .square => 1
  | _ => 0

theorem Phase.depth_close (isCall : Bool) (outer : List Bracket) :
    (close isCall outer).depth = outer.length := by
  cases outer with
  | nil => cases isCall <;> rfl
  | cons b outer => simp [close, depth]

theorem Phase.depth_inside_ne_zero (b : Bracket) (outer : List Bracket) (isCall : Bool) :
    (Phase.inside b outer isCall).depth ≠ 0 := by
  simp only [depth]
  omega

theorem Phase.depth_of_ends {p : Phase} (ends : p.wanted? = none) : p.depth = 0 := by
  cases p with
  | word | called | suffix => rfl
  | _ => simp [wanted?] at ends

theorem Phase.depth_afterMember {k : Kind} {q : Phase} (taken : afterMember? k = some q) :
    q.depth = k.weight := by
  unfold afterMember? at taken
  split at taken <;> cases taken <;> rfl

-- The machine keeps count of the brackets: each token changes the depth of its phase by its weight.
theorem Phase.depth_next {p q : Phase} {k : Kind} (taken : p.next? k = some q) :
    q.depth = p.depth + k.weight := by
  cases step_of_next? taken with
  | keyword | name | round | curly | params | args | result | array => rfl
  | nest => simp [depth, Kind.weight]
  | inner inner => simp [Kind.weight_of_isInner inner]
  | close =>
    rw [depth_close]
    simp only [depth, Kind.weight]
    omega
  | after ends suffix => simp [depth_of_ends ends, depth_afterMember suffix]

theorem Phase.eq_suffix_iff {p q : Phase} (taken : p.next? .question = some q) :
    q = .suffix ↔ p.depth = 0 := by
  cases step_of_next? taken with
  | inner => simp [depth_inside_ne_zero]
  | after ends suffix =>
    cases suffix
    simp [depth_of_ends ends]

theorem Phase.eq_called_iff {p q : Phase} (taken : p.next? .colon = some q) :
    p = .called ↔ p.depth = 0 := by
  cases step_of_next? taken with
  | inner => simp [depth_inside_ne_zero]
  | result => simp [depth]
  | after ends suffix => cases suffix

-- Some `?` stands outside all brackets, and no `:` before it does. The list is read with `already`
-- brackets open.
def Marked (already : Int) (ks : List Kind) : Prop :=
  ∃ front back, ks = front ++ .question :: back ∧ already + depth front = 0 ∧
    ∀ earlier later, front = earlier ++ .colon :: later → already + depth earlier ≠ 0

theorem not_marked_nil (already : Int) : ¬ Marked already [] := by
  rintro ⟨front, back, split, _⟩
  simp at split

theorem marked_cons (already : Int) (k : Kind) (ks : List Kind) :
    Marked already (k :: ks) ↔ (k = .question ∧ already = 0) ∨
      (¬ (k = .colon ∧ already = 0) ∧ Marked (already + k.weight) ks) := by
  constructor
  · rintro ⟨front, back, split, outside, first⟩
    cases front with
    | nil =>
      simp only [List.nil_append, List.cons.injEq] at split
      exact .inl ⟨split.1, by simpa using outside⟩
    | cons l front =>
      simp only [List.cons_append, List.cons.injEq] at split
      obtain ⟨rfl, rfl⟩ := split
      refine .inr ⟨?_, front, back, rfl, by simpa [Int.add_assoc] using outside, ?_⟩
      · rintro ⟨rfl, top⟩
        exact first [] front rfl (by simpa using top)
      · rintro earlier later rfl
        simpa [Int.add_assoc] using first (k :: earlier) later rfl
  · rintro (⟨rfl, top⟩ | ⟨no_result, front, back, rfl, outside, first⟩)
    · exact ⟨[], ks, rfl, by simpa using top, by simp⟩
    · refine ⟨k :: front, back, rfl, by simpa [Int.add_assoc] using outside, ?_⟩
      intro earlier later split
      cases earlier with
      | nil =>
        simp only [List.nil_append, List.cons.injEq] at split
        simpa using fun top => no_result ⟨split.1, top⟩
      | cons l earlier =>
        simp only [List.cons_append, List.cons.injEq] at split
        obtain ⟨rfl, split⟩ := split
        simpa [Int.add_assoc] using first earlier later split

theorem marksOptional_iff {p q : Phase} {inResult : Bool} {k : Kind} (taken : p.next? k = some q) :
    marksOptional inResult k q = true ↔ inResult = false ∧ k = .question ∧ p.depth = 0 := by
  by_cases question : k = .question
  · subst question
    simp [marksOptional, Phase.eq_suffix_iff taken]
  · simp [marksOptional, question]

-- A result starts at a `:` outside all brackets, and ends with the term.
theorem startsResult_iff {p q : Phase} {k : Kind} (taken : p.next? k = some q) :
    (p == .called && k == .colon) = true ↔ k = .colon ∧ p.depth = 0 := by
  by_cases colon : k = .colon
  · subst colon
    simp [Phase.eq_called_iff taken]
  · simp [colon]

theorem eq_of_finish {p : Phase} {rest : List Token} {r : Reading} (ok : finish p rest = .ok r) :
    r = ⟨[], rest, false⟩ := by
  unfold finish at ok
  split at ok <;> cases ok
  rfl

-- The run of the machine: a mark in the tokens taken sets the flag, unless they are in a result.
theorem read_optional_iff {p : Phase} {inResult : Bool} {ts : List Token} {r : Reading}
    (ok : read p inResult ts = .ok r) :
    r.optional = true ↔ inResult = false ∧ Marked p.depth (kinds r.taken) := by
  fun_induction read p inResult ts generalizing r with
  | case1 | case2 => simp [eq_of_finish ok, not_marked_nil]
  | case3 => cases ok
  | case4 p inResult t ts next step s later ih =>
    cases ok
    rw [kinds_cons, marked_cons, ← Phase.depth_next step, ← startsResult_iff step, Bool.or_eq_true,
      marksOptional_iff step, ih later]
    cases inResult <;> simp [or_comm]

theorem readTerm_optional_iff {ts : List Token} {r : Reading} (ok : readTerm ts = .ok r) :
    r.optional = true ↔ Marked 0 (kinds r.taken) := by
  unfold readTerm at ok
  split at ok
  · simpa [Phase.depth] using read_optional_iff ok
  · cases ok
    simp [not_marked_nil]

/-- A type is optional exactly if a `?` stands outside all brackets and no `:` outside all brackets
comes before it, so that the `?` is in no function result. -/
theorem parse_optional_iff_outer_question {input : Text} {tail : Tail}
    (parsed : Tail.parse input = .ok tail) :
    ∃ taken rest, tokens input = taken ++ rest ∧ phrase taken = tail.type ∧
      (∀ taken' rest', tokens input = taken' ++ rest' → phrase taken' = tail.type →
        taken' = taken) ∧
      (tail.optional = true ↔ ∃ front back, kinds taken = front ++ .question :: back ∧
        depth front = 0 ∧
          ∀ earlier later, front = earlier ++ .colon :: later → depth earlier ≠ 0) := by
  obtain ⟨r, read_ok, rfl⟩ := parse_eq_ok_iff.mp parsed
  have split := (complete_of_readTerm read_ok).1
  refine ⟨r.taken, r.rest, split, rfl, ?_, ?_⟩
  · intro taken' rest' split' same
    exact taken_eq_of_phrase_eq (sound_of_split split') (split'.symm.trans split) same
  · simpa [Marked] using readTerm_optional_iff read_ok

theorem parse_optional_iff_outer_question_sample :
    Tail.parse "fun(a: b?)[]? | fun(): c # d".toList =
        .ok ⟨"fun(a: b?)[]? | fun(): c".toList, "d".toList, true⟩ ∧
      ∃ taken rest, tokens "fun(a: b?)[]? | fun(): c # d".toList = taken ++ rest ∧
        phrase taken = "fun(a: b?)[]? | fun(): c".toList ∧
        ∃ front back, kinds taken = front ++ .question :: back ∧ depth front = 0 ∧
          ∀ earlier later, front = earlier ++ .colon :: later → depth earlier ≠ 0 := by
  have parsed : Tail.parse "fun(a: b?)[]? | fun(): c # d".toList =
      .ok ⟨"fun(a: b?)[]? | fun(): c".toList, "d".toList, true⟩ := by decide
  obtain ⟨taken, rest, split, same, _, optional⟩ := parse_optional_iff_outer_question parsed
  exact ⟨parsed, taken, rest, split, same, optional.mp rfl⟩

end DocHarvest.TypeTerm
