import DocHarvest.Proofs.TypeTerm.Grammar
import DocHarvest.Proofs.TypeTerm.Spelling
import DocHarvest.TypeTerm.Tail

set_option autoImplicit false

namespace DocHarvest.TypeTerm

open Grammar

def kinds (ts : List Token) : List Kind := ts.map Token.kind

@[simp] theorem kinds_nil : kinds [] = [] := rfl

@[simp] theorem kinds_cons (t : Token) (ts : List Token) :
    kinds (t :: ts) = t.kind :: kinds ts := rfl

@[simp] theorem kinds_append (ts us : List Token) : kinds (ts ++ us) = kinds ts ++ kinds us := by
  simp [kinds]

-- A term that ends before `rest`, and that no token there could extend.
def Complete (taken rest : List Token) : Prop :=
  Expression (kinds taken) ∧ ∀ t ∈ rest.head?, ¬ Extends (kinds taken) t.kind

theorem read_stop {p : Phase} {inResult : Bool} {rest : List Token} (ends : p.wanted? = none)
    (stops : ∀ t ∈ rest.head?, p.next? t.kind = none) :
    read p inResult rest = .ok ⟨[], rest, false⟩ := by
  cases rest with
  | nil => simp [read, finish, ends]
  | cons t rest => simp [read, finish, ends, stops t (by simp)]

theorem read_of_run {p q : Phase} {taken : List Token} (inResult : Bool)
    (run : p.run (kinds taken) = some q) (ends : q.wanted? = none) :
    ∃ optional, ∀ rest : List Token, (∀ t ∈ rest.head?, q.next? t.kind = none) →
      read p inResult (taken ++ rest) = .ok ⟨taken, rest, optional⟩ := by
  induction taken generalizing p inResult with
  | nil =>
    cases run
    exact ⟨false, fun rest stops => read_stop ends stops⟩
  | cons t taken ih =>
    simp only [kinds_cons, Phase.run_cons, Option.bind_eq_some_iff] at run
    obtain ⟨m, step, run⟩ := run
    obtain ⟨optional, later⟩ := ih (inResult || p == .called && t.kind == .colon) run
    refine ⟨optional || marksOptional inResult t.kind m, ?_⟩
    intro rest stops
    simp only [List.cons_append, read, step, later rest stops]

theorem run_of_read {p : Phase} {inResult : Bool} {ts : List Token} {r : Reading}
    (ok : read p inResult ts = .ok r) : ts = r.taken ++ r.rest ∧ ∃ q,
      p.run (kinds r.taken) = some q ∧ q.wanted? = none ∧
        ∀ t ∈ r.rest.head?, q.next? t.kind = none := by
  induction ts generalizing p inResult r with
  | nil =>
    cases ends : p.wanted? with
    | none =>
      simp only [read, finish, ends, Except.ok.injEq] at ok
      subst ok
      exact ⟨rfl, p, rfl, ends, by simp⟩
    | some w => simp [read, finish, ends] at ok
  | cons t ts ih =>
    cases step : p.next? t.kind with
    | none =>
      cases ends : p.wanted? with
      | none =>
        simp only [read, step, finish, ends, Except.ok.injEq] at ok
        subst ok
        exact ⟨rfl, p, rfl, ends, by simp [step]⟩
      | some w => simp [read, step, finish, ends] at ok
    | some m =>
      cases later : read m (inResult || p == .called && t.kind == .colon) ts with
      | error e => simp [read, step, later] at ok
      | ok s =>
        simp only [read, step, later, Except.ok.injEq] at ok
        subst ok
        obtain ⟨same, q, run, ends, stops⟩ := ih later
        exact ⟨by simp [← same], q, by simp [step, run], ends, stops⟩

theorem allowedIn_of_isInner {k : Kind} (inner : k.isInner = true) (b : Bracket) :
    allowedIn b k = true := by
  cases k with
  | closing c => simp [Kind.isInner] at inner
  | _ => rfl

theorem allowedIn_items {ks : List Kind} (items : Items ks) (b : Bracket) (rest : List Kind) :
    ∃ k ls, ks ++ .closing b :: rest = k :: ls ∧ allowedIn b k = true := by
  cases items with
  | nil => exact ⟨_, _, rfl, by simp [allowedIn]⟩
  | inner inner _ => exact ⟨_, _, rfl, allowedIn_of_isInner inner b⟩
  | group _ _ => exact ⟨_, _, rfl, rfl⟩

theorem startsTerm_group {b : Bracket} {g : List Kind} (group : Group b g)
    (outer : b = .round ∨ b = .curly) (rest : List Kind) : startsTerm (g ++ rest) = true := by
  have opens : (b == .round || b == .curly) = true := by simpa using outer
  cases group with
  | enclosed items =>
    cases items with
    | nil => simpa [startsTerm] using outer
    | @inner k ks inner items =>
      -- Three tokens are looked at: the bracket, the first item, and what follows that.
      obtain ⟨c, ls, shape, allowed⟩ := allowedIn_items items b rest
      cases k with
      | opening | closing => simp [Kind.isInner] at inner
      | _ => simpa [startsTerm, shape, allowed] using outer
    | @group o ks ls items _ =>
      obtain ⟨c, more, shape, allowed⟩ := allowedIn_items items o (ls ++ .closing b :: rest)
      simpa [startsTerm, shape, allowed] using outer

theorem startsTerm_primary {ks : List Kind} (primary : Primary ks) (rest : List Kind) :
    startsTerm (ks ++ rest) = true := by
  have keyword {g more : List Kind} (group : Group .round g) :
      startsTerm (.funKeyword :: (g ++ more)) = true := by
    cases group with
    | enclosed items =>
      obtain ⟨c, ls, shape, allowed⟩ := allowedIn_items items .round more
      simp [startsTerm, shape, allowed]
  cases primary with
  | call group => exact keyword group
  | result group _ => simpa using keyword group
  | word | applied _ => rfl
  | round group => exact startsTerm_group group (.inl rfl) rest
  | curly group => exact startsTerm_group group (.inr rfl) rest

theorem startsTerm_member {ks : List Kind} (member : Member ks) (rest : List Kind) :
    startsTerm (ks ++ rest) = true := by
  obtain ⟨first, more, primary, rfl⟩ := member.exists_primary
  simpa using startsTerm_primary primary (more ++ rest)

theorem startsTerm_expression {ks : List Kind} (derived : Expression ks) (rest : List Kind) :
    startsTerm (ks ++ rest) = true := by
  cases derived with
  | member member => exact startsTerm_member member rest
  | union member _ => simpa using startsTerm_member member _

-- A complete term is read, and how it is read does not depend on what follows.
theorem readTerm_of_expression {taken : List Token} (derived : Expression (kinds taken)) :
    ∃ optional, ∀ rest : List Token, (∀ t ∈ rest.head?, ¬ Extends (kinds taken) t.kind) →
      readTerm (taken ++ rest) = .ok ⟨taken, rest, optional⟩ := by
  obtain ⟨q, run, ends⟩ := run_expression derived
  obtain ⟨optional, read_ok⟩ := read_of_run false run ends
  refine ⟨optional, ?_⟩
  intro rest stops
  have starts : startsTerm ((taken ++ rest).map Token.kind) = true := by
    simpa [kinds] using startsTerm_expression derived (kinds rest)
  rw [readTerm, if_pos starts]
  apply read_ok
  intro t first
  have stop := stops t first
  rw [extends_iff run ends] at stop
  simpa using stop

theorem complete_of_readTerm {ts : List Token} {r : Reading} (ok : readTerm ts = .ok r) :
    ts = r.taken ++ r.rest ∧
      (r.taken ≠ [] → Complete r.taken r.rest) ∧
      (r.taken = [] → startsTerm (kinds ts) = false) := by
  unfold readTerm at ok
  split at ok
  · obtain ⟨same, q, run, ends, stops⟩ := run_of_read ok
    refine ⟨same, ?_, ?_⟩
    · intro _
      refine ⟨expression_iff_run.mpr ⟨q, run, ends⟩, ?_⟩
      intro t first
      rw [extends_iff run ends, stops t first]
      simp
    · intro none
      rw [none] at run
      cases run
      simp [Phase.wanted?] at ends
  · next starts =>
    cases ok
    exact ⟨rfl, by simp, fun _ => by simpa [kinds] using starts⟩

theorem extends_of_longer {ks ls : List Kind} {k : Kind} (derived : Expression ks)
    (longer : Expression (ks ++ k :: ls)) : Extends ks k := by
  obtain ⟨p, run, ends⟩ := run_expression derived
  obtain ⟨q, run_longer, _⟩ := run_expression longer
  rw [extends_iff run ends]
  cases step : p.next? k with
  | none => simp [run, step] at run_longer
  | some m => rfl

theorem Complete.longest {taken rest longer rest' : List Token} (complete : Complete taken rest)
    (split : longer ++ rest' = taken ++ rest) (derived : Expression (kinds longer)) :
    longer.length ≤ taken.length := by
  rcases List.append_eq_append_iff.mp split with ⟨more, rfl, _⟩ | ⟨more, rfl, rfl⟩
  · simp
  · cases more with
    | nil => simp
    | cons t more =>
      -- A longer term would go on with a token that extends the shorter one.
      have extended := extends_of_longer complete.1 (by simpa using derived)
      exact absurd extended (complete.2 t (by simp))

theorem taken_eq_of_phrase_eq {taken rest taken' rest' : List Token}
    (sound : ∀ t ∈ taken ++ rest, t.Sound) (split : taken ++ rest = taken' ++ rest')
    (same : phrase taken = phrase taken') : taken = taken' := by
  have longer {ts us : List Token} (sound : ∀ t ∈ ts ++ us, t.Sound)
      (same : phrase ts = phrase (ts ++ us)) : us = [] := by
    cases ts with
    | nil => exact phrase_eq_nil sound same.symm
    | cons t ts =>
      rw [phrase_append (by simp)] at same
      apply spelling_eq_nil
      · intro u member
        exact sound u (by simp [member])
      · simpa using same
  -- One of the two is a front of the other, and what it lacks spells nothing.
  rcases List.append_eq_append_iff.mp split with ⟨more, rfl, rfl⟩ | ⟨more, rfl, rfl⟩
  · rw [← List.append_assoc] at sound
    have none := longer (fun t member => sound t (List.mem_append_left _ member)) same
    simp [none]
  · have none := longer (fun t member => sound t (List.mem_append_left _ member)) same.symm
    simp [none]

theorem parse_eq_ok_iff {input : Text} {tail : Tail} : Tail.parse input = .ok tail ↔
    ∃ r, readTerm (tokens input) = .ok r ∧
      tail = ⟨phrase r.taken, Tail.descriptionOf r.rest, r.optional⟩ := by
  unfold Tail.parse
  cases readTerm (tokens input) with
  | error e => simp
  | ok r => simp [eq_comm]

theorem sound_of_split {input : Text} {taken rest : List Token}
    (split : tokens input = taken ++ rest) : ∀ t ∈ taken ++ rest, t.Sound := by
  rw [← split]
  exact fun t member => sound_of_mem_tokens member

theorem parse_type_iff_complete {input : Text} {taken rest : List Token}
    (split : tokens input = taken ++ rest) (some_taken : taken ≠ []) :
    (∃ tail, Tail.parse input = .ok tail ∧ tail.type = phrase taken) ↔ Complete taken rest := by
  constructor
  · rintro ⟨tail, ok, same⟩
    obtain ⟨r, read_ok, rfl⟩ := parse_eq_ok_iff.mp ok
    obtain ⟨read_split, complete, _⟩ := complete_of_readTerm read_ok
    rw [split] at read_split
    have taken_eq := taken_eq_of_phrase_eq (sound_of_split split) read_split same.symm
    subst taken_eq
    have rest_eq : rest = r.rest := List.append_cancel_left read_split
    rw [rest_eq]
    exact complete some_taken
  · rintro ⟨derived, stops⟩
    obtain ⟨optional, read_ok⟩ := readTerm_of_expression derived
    have parsed : readTerm (tokens input) = .ok ⟨taken, rest, optional⟩ := by
      rw [split]
      exact read_ok rest stops
    exact ⟨_, parse_eq_ok_iff.mpr ⟨_, parsed, rfl⟩, rfl⟩

theorem exists_complete_of_parse {input : Text} {tail : Tail} (ok : Tail.parse input = .ok tail)
    (shown : tail.type ≠ []) : ∃ taken rest, tokens input = taken ++ rest ∧
      tail.type = phrase taken ∧ Complete taken rest := by
  obtain ⟨r, read_ok, rfl⟩ := parse_eq_ok_iff.mp ok
  obtain ⟨split, complete, _⟩ := complete_of_readTerm read_ok
  refine ⟨r.taken, r.rest, split, rfl, complete ?_⟩
  intro none
  exact shown (by simp [none, phrase])

theorem not_expression_of_parse_empty {input : Text} {tail : Tail}
    (ok : Tail.parse input = .ok tail) (empty : tail.type = []) {taken rest : List Token}
    (split : tokens input = taken ++ rest) : ¬ Expression (kinds taken) := by
  intro derived
  obtain ⟨r, read_ok, rfl⟩ := parse_eq_ok_iff.mp ok
  obtain ⟨read_split, _, unstarted⟩ := complete_of_readTerm read_ok
  have sound : ∀ t ∈ r.taken, t.Sound := fun t member =>
    sound_of_split read_split t (List.mem_append_left _ member)
  have starts := startsTerm_expression derived (kinds rest)
  rw [← kinds_append, ← split, unstarted (phrase_eq_nil sound empty)] at starts
  simp at starts

/-- Reading a tail against its grammar. A prefix of the tokens is the type that is returned exactly
if it derives and the next token could not extend it; so a type that is returned is the longest
derivable prefix, at most one prefix qualifies, and no type is returned only if none derives. -/
theorem parse_takes_longest_term (input : Text) :
    (∀ taken rest, tokens input = taken ++ rest → taken ≠ [] →
      (∃ gap, gap.all Text.isBlank = true ∧
        input = gap ++ phrase taken ++ spelling rest ++ blanksAfter input) ∧
      ((∃ tail, Tail.parse input = .ok tail ∧ tail.type = phrase taken) ↔
        Complete taken rest)) ∧
    (∀ tail, Tail.parse input = .ok tail → tail.type ≠ [] → ∃ taken rest,
      tokens input = taken ++ rest ∧ tail.type = phrase taken ∧ Expression (kinds taken) ∧
        ∀ longer rest', tokens input = longer ++ rest' → Expression (kinds longer) →
          longer.length ≤ taken.length) ∧
    (∀ taken rest taken' rest', tokens input = taken ++ rest → tokens input = taken' ++ rest' →
      Complete taken rest → Complete taken' rest' → taken = taken') ∧
    (∀ tail, Tail.parse input = .ok tail → tail.type = [] → ∀ taken rest,
      tokens input = taken ++ rest → taken ≠ [] → ¬ Expression (kinds taken)) := by
  refine ⟨?_, ?_, ?_, ?_⟩
  · intro taken rest split some_taken
    refine ⟨?_, parse_type_iff_complete split some_taken⟩
    obtain ⟨t, ts, rfl⟩ := List.exists_cons_of_ne_nil some_taken
    have sound := sound_of_split split t (by simp)
    exact ⟨t.gap, by simpa using sound.gap_blank, eq_gap_phrase_blanks split⟩
  · intro tail ok shown
    obtain ⟨taken, rest, split, same, complete⟩ := exists_complete_of_parse ok shown
    refine ⟨taken, rest, split, same, complete.1, ?_⟩
    intro longer rest' longer_split derived
    exact complete.longest (longer_split.symm.trans split) derived
  · intro taken rest taken' rest' split split' complete complete'
    have same := split.symm.trans split'
    have le := complete'.longest same complete.1
    have ge := complete.longest same.symm complete'.1
    exact (List.append_inj same (Nat.le_antisymm le ge)).1
  · intro tail ok empty taken rest split _
    exact not_expression_of_parse_empty ok empty split

end DocHarvest.TypeTerm
