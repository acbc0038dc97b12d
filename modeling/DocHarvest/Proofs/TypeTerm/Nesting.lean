import DocHarvest.Proofs.TypeTerm.Longest

set_option autoImplicit false

namespace DocHarvest.TypeTerm

open Grammar

-- The brackets that are open after a token, the innermost first; a closer must fit that one.
def Kind.turn? : Kind → List Bracket → Option (List Bracket)
  | .opening b, stack => some (b :: stack)
  | .closing b, o :: stack => if b = o then some stack else none
  | .closing _, [] => none
  | _, stack => some stack

def nests : List Bracket → List Kind → Bool
  | stack, [] => stack.isEmpty
  | stack, k :: ks => (k.turn? stack).any fun next => nests next ks

@[simp] theorem nests_nil (stack : List Bracket) : nests stack [] = stack.isEmpty := rfl

@[simp] theorem nests_cons (stack : List Bracket) (k : Kind) (ks : List Kind) :
    nests stack (k :: ks) = (k.turn? stack).any fun next => nests next ks := rfl

def Balanced (t : Text) : Prop := nests [] (t.filterMap delimiter?) = true

instance (t : Text) : Decidable (Balanced t) :=
  inferInstanceAs (Decidable (nests [] (t.filterMap delimiter?) = true))

theorem Kind.turn?_of_isInner {k : Kind} (inner : k.isInner = true) (stack : List Bracket) :
    k.turn? stack = some stack := by
  cases k with
  | opening | closing => simp [isInner] at inner
  | _ => rfl

theorem turn?_wordKind (run : Text) (stack : List Bracket) :
    (wordKind run).turn? stack = some stack := by
  unfold wordKind
  split <;> rfl

theorem nests_tokensFrom (t gap run : Text) (stack : List Bracket) :
    nests stack (kinds (tokensFrom gap run t).1) = nests stack (t.filterMap delimiter?) := by
  induction t generalizing gap run stack with
  | nil => by_cases started : run = [] <;> simp [tokensFrom, started, runToken, turn?_wordKind]
  | cons c t ih =>
    by_cases blank : Text.isBlank c = true
    · have plain := delimiter?_of_isBlank blank
      by_cases started : run = [] <;>
        simp [tokensFrom, blank, started, plain, runToken, turn?_wordKind, ih]
    · cases found : delimiter? c with
      | none => simp [tokensFrom, blank, found, ih]
      | some k =>
        by_cases started : run = [] <;>
          simp [tokensFrom, blank, found, started, runToken, turn?_wordKind, ih]

theorem balanced_iff_nests (t : Text) : Balanced t ↔ nests [] (kinds (tokens t)) = true := by
  rw [Balanced, tokens, nests_tokensFrom]

def Phase.stack : Phase → List Bracket
  | .inside b outer _ => b :: outer
  | .square => [.square]
  | _ => []

theorem Phase.stack_close (isCall : Bool) (outer : List Bracket) :
    (close isCall outer).stack = outer := by
  cases outer with
  | nil => cases isCall <;> rfl
  | cons b outer => rfl

theorem Phase.stack_of_ends {p : Phase} (ends : p.wanted? = none) : p.stack = [] := by
  cases p with
  | word | called | suffix => rfl
  | _ => simp [wanted?] at ends

-- The machine remembers the brackets that are open, and no others.
theorem Phase.turn?_of_next? {p q : Phase} {k : Kind} (taken : p.next? k = some q) :
    k.turn? p.stack = some q.stack := by
  cases step_of_next? taken with
  | keyword | name | round | curly | params | args | nest | result | array => rfl
  | inner inner => exact Kind.turn?_of_isInner inner _
  | close =>
    rw [stack_close]
    simp [stack, Kind.turn?]
  | after ends suffix =>
    rw [stack_of_ends ends]
    unfold afterMember? at suffix
    split at suffix <;> cases suffix <;> rfl

theorem Phase.nests_of_run {p q : Phase} {front rest : List Kind} (run : p.run front = some q)
    (nested : nests p.stack (front ++ rest) = true) : nests q.stack rest = true := by
  induction front generalizing p with
  | nil =>
    cases run
    exact nested
  | cons k front ih =>
    simp only [run_cons, Option.bind_eq_some_iff] at run
    obtain ⟨m, taken, run⟩ := run
    apply ih run
    simpa [turn?_of_next? taken] using nested

theorem Phase.inside_goes_on {b : Bracket} {outer : List Bracket} {isCall : Bool} {ks : List Kind}
    (nested : nests (inside b outer isCall).stack ks = true) :
    ∃ k rest, ks = k :: rest ∧ ((inside b outer isCall).next? k).isSome = true := by
  cases ks with
  | nil => simp [stack] at nested
  | cons k rest =>
    refine ⟨k, rest, rfl, ?_⟩
    cases k with
    | closing c =>
      simp only [nests_cons, stack, Kind.turn?] at nested
      split at nested
      · next fits => simp [next?, fits]
      · cases nested
    | _ => rfl

def Breaks (p : Phase) (ks : List Kind) : Prop :=
  ∃ front rest q, ks = front ++ rest ∧ p.run front = some q ∧ q.wanted? ≠ none ∧
    ∀ k ∈ rest.head?, q.next? k = none

theorem Breaks.here {p : Phase} {ks : List Kind} (wanting : p.wanted? ≠ none)
    (stops : ∀ k ∈ ks.head?, p.next? k = none) : Breaks p ks :=
  ⟨[], ks, p, rfl, rfl, wanting, stops⟩

theorem Breaks.later {p m : Phase} {front rest : List Kind} (breaks : Breaks m rest)
    (run : p.run front = some m) : Breaks p (front ++ rest) := by
  obtain ⟨more, rest, q, rfl, run', wanting, stops⟩ := breaks
  exact ⟨front ++ more, rest, q, by simp, by simp [run, run'], wanting, stops⟩

theorem Breaks.cons {p m : Phase} {k : Kind} {rest : List Kind} (breaks : Breaks m rest)
    (step : p.next? k = some m) : Breaks p (k :: rest) :=
  breaks.later (show p.run [k] = some m by simp [step])

theorem finish_fails_iff (p : Phase) (rest : List Token) :
    (∃ f, finish p rest = .error f) ↔ p.wanted? ≠ none := by
  cases wanted : p.wanted? <;> simp [finish, wanted]

theorem breaks_of_read {p : Phase} {inResult : Bool} {ts : List Token} {f : Fault}
    (failed : read p inResult ts = .error f) : Breaks p (kinds ts) := by
  fun_induction read p inResult ts with
  | case1 p inResult => exact .here ((finish_fails_iff p []).mp ⟨f, failed⟩) (by simp)
  | case2 p inResult t ts step =>
    exact .here ((finish_fails_iff p _).mp ⟨f, failed⟩) (by simpa using step)
  | case3 p inResult t ts next step e later ih => exact (ih (later.trans failed)).cons step
  | case4 => cases failed

theorem Breaks.read {p : Phase} {ts : List Token} (breaks : Breaks p (kinds ts)) (inResult : Bool) :
    ∃ f, read p inResult ts = .error f := by
  obtain ⟨front, rest, q, split, run, wanting, stops⟩ := breaks
  induction front generalizing p inResult ts with
  | nil =>
    cases run
    obtain rfl : kinds ts = rest := split
    obtain ⟨f, failed⟩ := (finish_fails_iff q ts).mpr wanting
    cases ts with
    | nil => exact ⟨f, failed⟩
    | cons t ts => exact ⟨f, by simpa [TypeTerm.read, stops t.kind (by simp)] using failed⟩
  | cons k front ih =>
    cases ts with
    | nil => cases split
    | cons t ts =>
      simp only [kinds_cons, List.cons_append, List.cons.injEq] at split
      obtain ⟨rfl, split⟩ := split
      simp only [Phase.run_cons, Option.bind_eq_some_iff] at run
      obtain ⟨m, step, run⟩ := run
      obtain ⟨f, failed⟩ := ih (inResult || p == .called && t.kind == .colon) split run
      exact ⟨f, by simp [TypeTerm.read, step, failed]⟩

def startsMember : List Kind → Bool
  | .word :: _ => true
  | .funKeyword :: rest => rest.head? == some (.opening .round)
  | .opening b :: _ => b == .round || b == .curly
  | _ => false

theorem startsMember_of_startsTerm {ks : List Kind} (starts : startsTerm ks = true) :
    startsMember ks = true := by
  unfold startsTerm at starts
  split at starts
  · rfl
  · rfl
  · exact (Bool.and_eq_true_iff.mp starts).1
  · cases starts

theorem startsMember_cons {k : Kind} {ks : List Kind} : startsMember (k :: ks) = true ↔
    ∃ q, Phase.member.next? k = some q ∧ (q = .call → ks.head? = some (.opening .round)) := by
  cases k with
  | opening b => cases b <;> simp [startsMember, Phase.next?]
  | _ => simp [startsMember, Phase.next?]

theorem Phase.call_next? {k : Kind} : call.next? k = none ↔ k ≠ .opening .round := by
  cases k with
  | opening b => cases b <;> simp [next?]
  | _ => simp [next?]

theorem Phase.square_next? {k : Kind} : square.next? k = none ↔ k ≠ .closing .square := by
  cases k with
  | closing b => cases b <;> simp [next?]
  | _ => simp [next?]

-- Where a member must start and none does, the machine stops at once or right after the keyword.
theorem breaks_of_no_member {ks : List Kind} (none_starts : startsMember ks = false) :
    Breaks .member ks := by
  cases ks with
  | nil => exact .here (by simp [Phase.wanted?]) (by simp)
  | cons k ks =>
    cases step : Phase.member.next? k with
    | none => exact .here (by simp [Phase.wanted?]) (by simpa using step)
    | some q =>
      rw [Bool.eq_false_iff, ne_eq, startsMember_cons] at none_starts
      obtain ⟨rfl, refused⟩ : q = .call ∧ ks.head? ≠ some (.opening .round) := by
        simpa [step] using none_starts
      apply Breaks.cons _ step
      apply Breaks.here (by simp [Phase.wanted?])
      rintro l first
      rw [Phase.call_next?]
      rintro rfl
      exact refused first

theorem no_member_of_stops {ks : List Kind} (stops : ∀ k ∈ ks.head?, Phase.member.next? k = none) :
    startsMember ks = false := by
  cases ks with
  | nil => rfl
  | cons k ks =>
    rw [Bool.eq_false_iff, ne_eq, startsMember_cons]
    simp [stops k (by simp)]

theorem no_member_of_keyword {ks : List Kind} (stops : ∀ k ∈ ks.head?, Phase.call.next? k = none) :
    startsMember (.funKeyword :: ks) = false := by
  rw [Bool.eq_false_iff]
  intro starts
  have opens : ks.head? = some (.opening .round) := by simpa [startsMember] using starts
  exact Phase.call_next?.mp (stops _ opens) rfl

theorem exists_last_step {p q : Phase} {front : List Kind} (started : front ≠ [])
    (run : p.run front = some q) : ∃ taken k m, front = taken ++ [k] ∧
      p.run taken = some m ∧ m.next? k = some q := by
  rcases List.eq_nil_or_concat front with rfl | ⟨taken, k, rfl⟩
  · exact absurd rfl started
  · obtain ⟨m, run, last⟩ : ∃ m, p.run taken = some m ∧ m.next? k = some q := by
      simpa [Option.bind_eq_some_iff] using run
    exact ⟨taken, k, m, by simp, run, last⟩

def Enters (p : Phase) (k : Kind) : Phase → Prop
  | .member => p.wanted? = none ∧ (k = .pipe ∨ k = .colon ∧ p = .called)
  | .square => p.wanted? = none ∧ k = .opening .square
  | .call => p = .member ∧ k = .funKeyword
  | _ => True

theorem enters_of_next? {p q : Phase} {k : Kind} (taken : p.next? k = some q) : Enters p k q := by
  cases step_of_next? taken with
  | keyword => exact ⟨rfl, rfl⟩
  | result => exact ⟨rfl, .inr ⟨rfl, rfl⟩⟩
  | @close b outer isCall => cases outer <;> cases isCall <;> trivial
  | after ends suffix =>
    unfold afterMember? at suffix
    split at suffix <;> cases suffix
    · trivial
    · exact ⟨ends, rfl⟩
    · exact ⟨ends, .inl rfl⟩
  | _ => trivial

-- Where brackets nest, the break is after a `[` or where a member should start.
theorem Breaks.outside {ks : List Kind} (breaks : Breaks .member ks) (nested : nests [] ks = true) :
    ∃ front rest, ks = front ++ rest ∧
      (Phase.member.run front = some .square ∧ rest.head? ≠ some (.closing .square) ∨
        Phase.member.run front = some .member ∧ startsMember rest = false) := by
  obtain ⟨front, rest, q, rfl, run, wanting, stops⟩ := breaks
  have nested := Phase.nests_of_run (p := .member) run nested
  cases q with
  | member => exact ⟨front, rest, rfl, .inr ⟨run, no_member_of_stops stops⟩⟩
  | call =>
    -- The keyword is read already; the member that does not start is the one with it.
    obtain ⟨taken, k, m, rfl, before, last⟩ := exists_last_step (by rintro rfl; cases run) run
    obtain ⟨rfl, rfl⟩ := enters_of_next? last
    exact ⟨taken, _, by simp, .inr ⟨before, no_member_of_keyword stops⟩⟩
  | inside b outer isCall =>
    obtain ⟨k, ks, rfl, goes_on⟩ := Phase.inside_goes_on nested
    simp [stops k (by simp)] at goes_on
  | square =>
    refine ⟨front, rest, rfl, .inl ⟨run, ?_⟩⟩
    intro closes
    cases stops _ closes
  | word | called | suffix => exact absurd rfl wanting

/-- After a whole term stands a token that goes on with it, but what comes next does not: a `[` that
is not closed at once, or a `|` or the `:` of a result without a member behind it. -/
def Strands (taken : List Kind) (k : Kind) (rest : List Kind) : Prop :=
  (k = .opening .square ∧ rest.head? ≠ some (.closing .square)) ∨
    ((k = .pipe ∨ k = .colon ∧ EndsInCall taken) ∧ startsMember rest = false)

def Stranded (ks : List Kind) : Prop :=
  ∃ taken k rest, ks = taken ++ k :: rest ∧ Expression taken ∧ Strands taken k rest

theorem Breaks.stranded {ks : List Kind} (breaks : Breaks .member ks)
    (starts : startsMember ks = true) (nested : nests [] ks = true) : Stranded ks := by
  obtain ⟨front, rest, rfl, stop⟩ := breaks.outside nested
  have started : front ≠ [] := by
    rintro rfl
    rcases stop with ⟨run, _⟩ | ⟨_, none_starts⟩
    · cases run
    · simp [none_starts] at starts
  rcases stop with ⟨run, unclosed⟩ | ⟨run, none_starts⟩
  · obtain ⟨taken, k, p, rfl, before, last⟩ := exists_last_step started run
    obtain ⟨ends, rfl⟩ := enters_of_next? last
    exact ⟨taken, _, rest, by simp, expression_iff_run.mpr ⟨p, before, ends⟩,
      .inl ⟨rfl, unclosed⟩⟩
  · obtain ⟨taken, k, p, rfl, before, last⟩ := exists_last_step started run
    obtain ⟨ends, joined⟩ := enters_of_next? last
    rw [← endsInCall_iff before ends] at joined
    exact ⟨taken, k, rest, by simp, expression_iff_run.mpr ⟨p, before, ends⟩,
      .inr ⟨joined, none_starts⟩⟩

theorem Stranded.breaks {ks : List Kind} (stranded : Stranded ks) : Breaks .member ks := by
  obtain ⟨taken, k, rest, rfl, derived, strands⟩ := stranded
  obtain ⟨p, run, ends⟩ := run_expression derived
  have onward {q : Phase} (step : p.next? k = some q) (breaks : Breaks q rest) :
      Breaks .member (taken ++ k :: rest) := by
    have longer : Phase.member.run (taken ++ [k]) = some q := by simp [run, step]
    simpa using breaks.later longer
  rcases strands with ⟨rfl, unclosed⟩ | ⟨rfl | ⟨rfl, call⟩, none_starts⟩
  · apply onward (afterMember?_of_ends ends rfl)
    apply Breaks.here (by simp [Phase.wanted?])
    intro k first
    rw [Phase.square_next?]
    rintro rfl
    exact unclosed first
  · exact onward (afterMember?_of_ends ends rfl) (breaks_of_no_member none_starts)
  · obtain rfl := (endsInCall_iff run ends).mp call
    exact onward rfl (breaks_of_no_member none_starts)

theorem Stranded.startsTerm {ks : List Kind} (stranded : Stranded ks) : startsTerm ks = true := by
  obtain ⟨taken, k, rest, rfl, derived, _⟩ := stranded
  exact startsTerm_expression derived (k :: rest)

theorem readTerm_fails_iff {ts : List Token} (nested : nests [] (kinds ts) = true) :
    (∃ f, readTerm ts = .error f) ↔ Stranded (kinds ts) := by
  constructor
  · rintro ⟨f, failed⟩
    unfold readTerm at failed
    split at failed
    · next starts =>
      exact (breaks_of_read failed).stranded (startsMember_of_startsTerm starts) nested
    · cases failed
  · intro stranded
    obtain ⟨f, failed⟩ := stranded.breaks.read false
    have starts : TypeTerm.startsTerm (ts.map Token.kind) = true := stranded.startsTerm
    exact ⟨f, by rw [readTerm, if_pos starts, failed]⟩

theorem parse_fails_iff {input : Text} :
    (∃ f, Tail.parse input = .error f) ↔ ∃ f, readTerm (tokens input) = .error f := by
  unfold Tail.parse
  cases readTerm (tokens input) <;> simp

/-- A tail whose brackets nest is refused only if its type is stranded; any other one is read by its
grammar and not cut at its first `#`. -/
theorem parse_fails_iff_stranded {input : Text} (balanced : Balanced input) :
    ((∃ fault, Tail.parse input = .error fault) ↔ Stranded (kinds (tokens input))) ∧
    (¬ Stranded (kinds (tokens input)) → Tail.parse input = .ok (Tail.ofText input)) := by
  have exact := parse_fails_iff.trans (readTerm_fails_iff ((balanced_iff_nests input).mp balanced))
  refine ⟨exact, ?_⟩
  intro goes_on
  cases parsed : Tail.parse input with
  | error fault => exact absurd (exact.mp ⟨fault, parsed⟩) goes_on
  | ok tail => simp [Tail.ofText, parsed]

theorem parse_fails_iff_stranded_sample :
    let input := "fun(x: \x7bT\x7d)[] | nil [k] or (v)".toList
    Balanced input ∧ Stranded (kinds (tokens input)) ∧
      ∃ fault, Tail.parse input = .error fault := by
  intro input
  have balanced : Balanced input := by decide
  have stranded : Stranded (kinds (tokens input)) :=
    ⟨(kinds (tokens input)).take 12, _, _, rfl, by decide, .inl ⟨rfl, by decide⟩⟩
  exact ⟨balanced, stranded, (parse_fails_iff_stranded balanced).1.mpr stranded⟩

-- A note in brackets after the type is taken for a suffix, and the whole tail for the type.
theorem balanced_tail_refused :
    let input := "string [opt] the name".toList
    Balanced input ∧
      Tail.parse input = .error ⟨.token (.closing .square), "opt".toList⟩ ∧
      Tail.ofText input = ⟨input, [], false⟩ := by
  decide

end DocHarvest.TypeTerm
