import DocHarvest.TypeTerm.Reading

set_option autoImplicit false

namespace DocHarvest.TypeTerm

def Kind.isInner : Kind → Bool
  | .opening _ | .closing _ => false
  | _ => true

namespace Grammar

inductive Items : List Kind → Prop where
  | nil : Items []
  | inner {k : Kind} {ks : List Kind} : k.isInner = true → Items ks → Items (k :: ks)
  | group {b : Bracket} {ks ls : List Kind} :
      Items ks → Items ls → Items (.opening b :: (ks ++ .closing b :: ls))

inductive Group (b : Bracket) : List Kind → Prop where
  | enclosed {ks : List Kind} : Items ks → Group b (.opening b :: (ks ++ [.closing b]))

mutual

inductive Expression : List Kind → Prop where
  | member {ks : List Kind} : Member ks → Expression ks
  | union {ks ls : List Kind} : Member ks → Expression ls → Expression (ks ++ .pipe :: ls)

inductive Member : List Kind → Prop where
  | primary {ks : List Kind} : Primary ks → Member ks
  | question {ks : List Kind} : Member ks → Member (ks ++ [.question])
  | array {ks : List Kind} : Member ks → Member (ks ++ [.opening .square, .closing .square])

inductive Primary : List Kind → Prop where
  | call {g : List Kind} : Group .round g → Primary (.funKeyword :: g)
  | result {g r : List Kind} :
      Group .round g → Expression r → Primary (.funKeyword :: g ++ .colon :: r)
  | word : Primary [.word]
  | applied {g : List Kind} : Group .angle g → Primary (.word :: g)
  | round {g : List Kind} : Group .round g → Primary g
  | curly {g : List Kind} : Group .curly g → Primary g

end

/-- The list ends with a call that has neither result nor suffix. In a derivable list such a call
stands outside all brackets, since its group closes last. -/
def EndsInCall (ks : List Kind) : Prop :=
  ∃ front g, Group .round g ∧ ks = front ++ .funKeyword :: g

def Extends (ks : List Kind) (k : Kind) : Prop :=
  k = .pipe ∨ k = .question ∨ k = .opening .square ∨
    (k = .opening .angle ∧ ks.getLast? = some .word) ∨ (k = .colon ∧ EndsInCall ks)

theorem Items.append {ks ls : List Kind} (front : Items ks) (back : Items ls) :
    Items (ks ++ ls) := by
  induction front with
  | nil => exact back
  | inner inner _ ih => exact .inner inner ih
  | @group b _ _ inside _ _ ih =>
    have joined := Items.group (b := b) inside ih
    simpa using joined

theorem Expression.question {ks : List Kind} (derived : Expression ks) :
    Expression (ks ++ [.question]) :=
  match derived with
  | .member first => .member (.question first)
  | .union first rest => by simpa using Expression.union first rest.question

theorem Expression.array {ks : List Kind} (derived : Expression ks) :
    Expression (ks ++ [.opening .square, .closing .square]) :=
  match derived with
  | .member first => .member (.array first)
  | .union first rest => by simpa using Expression.union first rest.array

theorem Expression.pipe {ks ls : List Kind} (derived : Expression ks) (more : Expression ls) :
    Expression (ks ++ .pipe :: ls) :=
  match derived with
  | .member first => .union first more
  | .union first rest => by simpa using Expression.union first (rest.pipe more)

theorem Member.exists_primary {ks : List Kind} (derived : Member ks) :
    ∃ first rest, Primary first ∧ ks = first ++ rest :=
  match derived with
  | .primary whole => ⟨ks, [], whole, by simp⟩
  | .question member | .array member => by
    obtain ⟨first, rest, derived, rfl⟩ := member.exists_primary
    exact ⟨first, _, derived, List.append_assoc ..⟩

end Grammar

open Grammar

def Phase.run : Phase → List Kind → Option Phase
  | p, [] => some p
  | p, k :: ks => (p.next? k).bind fun q => q.run ks

@[simp] theorem Phase.run_nil (p : Phase) : p.run [] = some p := rfl

@[simp] theorem Phase.run_cons (p : Phase) (k : Kind) (ks : List Kind) :
    p.run (k :: ks) = (p.next? k).bind fun q => q.run ks := rfl

@[simp] theorem Phase.run_append (p : Phase) (ks ls : List Kind) :
    p.run (ks ++ ls) = (p.run ks).bind fun q => q.run ls := by
  induction ks generalizing p with
  | nil => rfl
  | cons k ks ih => cases h : p.next? k <;> simp [h, ih]

inductive Step : Phase → Kind → Phase → Prop where
  | keyword : Step .member .funKeyword .call
  | name : Step .member .word .word
  | round : Step .member (.opening .round) (.inside .round [] false)
  | curly : Step .member (.opening .curly) (.inside .curly [] false)
  | params : Step .call (.opening .round) (.inside .round [] true)
  | args : Step .word (.opening .angle) (.inside .angle [] false)
  | nest {b o : Bracket} {outer : List Bracket} {isCall : Bool} :
      Step (.inside b outer isCall) (.opening o) (.inside o (b :: outer) isCall)
  | inner {b : Bracket} {outer : List Bracket} {isCall : Bool} {k : Kind} :
      k.isInner = true → Step (.inside b outer isCall) k (.inside b outer isCall)
  | close {b : Bracket} {outer : List Bracket} {isCall : Bool} :
      Step (.inside b outer isCall) (.closing b) (close isCall outer)
  | result : Step .called .colon .member
  | after {p q : Phase} {k : Kind} : p.wanted? = none → afterMember? k = some q → Step p k q
  | array : Step .square (.closing .square) .suffix

theorem step_of_next? {p q : Phase} {k : Kind} (taken : p.next? k = some q) : Step p k q := by
  cases p with
  | member =>
    cases k with
    | opening b => cases b <;> cases taken <;> constructor
    | _ => cases taken <;> constructor
  | call =>
    cases k with
    | opening b => cases b <;> cases taken; exact .params
    | _ => cases taken
  | inside b outer isCall =>
    cases k with
    | opening o => cases taken; exact .nest
    | closing c =>
      simp only [Phase.next?, Option.ite_none_right_eq_some, Option.some.injEq] at taken
      obtain ⟨rfl, rfl⟩ := taken
      exact .close
    | _ => cases taken; exact .inner rfl
  | word =>
    cases k with
    | opening b =>
      cases b with
      | angle => cases taken; exact .args
      | _ => exact .after rfl taken
    | _ => exact .after rfl taken
  | called =>
    cases k with
    | colon => cases taken; exact .result
    | _ => exact .after rfl taken
  | suffix => exact .after rfl taken
  | square =>
    cases k with
    | closing b => cases b <;> cases taken; exact .array
    | _ => cases taken

theorem inside_next_inner {k : Kind} (inner : k.isInner = true) (b : Bracket)
    (outer : List Bracket) (isCall : Bool) :
    (Phase.inside b outer isCall).next? k = some (.inside b outer isCall) := by
  cases k <;> first | rfl | simp [Kind.isInner] at inner

theorem inside_next_closing (b : Bracket) (outer : List Bracket) (isCall : Bool) :
    (Phase.inside b outer isCall).next? (.closing b) = some (close isCall outer) := by
  simp [Phase.next?]

theorem run_items {ks : List Kind} (items : Items ks) (b : Bracket) (outer : List Bracket)
    (isCall : Bool) :
    (Phase.inside b outer isCall).run ks = some (.inside b outer isCall) := by
  induction items generalizing b outer with
  | nil => rfl
  | inner inner _ ih => simp [inside_next_inner inner, ih]
  | group _ _ inner_ih rest_ih =>
    simp [Phase.next?, inner_ih, close, rest_ih]

theorem run_group {b : Bracket} {g : List Kind} (group : Group b g) : ∃ body,
    g = .opening b :: body ∧ ∀ outer isCall,
      (Phase.inside b outer isCall).run body = some (close isCall outer) := by
  cases group with
  | enclosed items =>
    refine ⟨_, rfl, ?_⟩
    intro outer isCall
    simp [run_items items, inside_next_closing]

theorem afterMember?_of_ends {p : Phase} (ends : p.wanted? = none) {k : Kind} {q : Phase}
    (suffix : afterMember? k = some q) : p.next? k = some q := by
  cases p with
  | word | called | suffix =>
    cases k with
    | opening b => cases b <;> simp_all [Phase.next?, afterMember?]
    | _ => simp_all [Phase.next?, afterMember?]
  | _ => simp [Phase.wanted?] at ends

mutual

theorem run_expression {ks : List Kind} (derived : Expression ks) :
    ∃ p, Phase.member.run ks = some p ∧ p.wanted? = none :=
  match derived with
  | .member member => run_member member
  | .union member rest => by
    obtain ⟨p, read, ends⟩ := run_member member
    obtain ⟨q, rest_read, rest_ends⟩ := run_expression rest
    exact ⟨q, by simp [read, afterMember?_of_ends ends (k := .pipe) rfl, rest_read], rest_ends⟩

theorem run_member {ks : List Kind} (derived : Member ks) :
    ∃ p, Phase.member.run ks = some p ∧ p.wanted? = none :=
  match derived with
  | .primary primary => run_primary primary
  | .question member => by
    obtain ⟨p, read, ends⟩ := run_member member
    exact ⟨.suffix, by simp [read, afterMember?_of_ends ends (k := .question) rfl], rfl⟩
  | .array member => by
    obtain ⟨p, read, ends⟩ := run_member member
    have closing : Phase.square.next? (.closing .square) = some .suffix := rfl
    refine ⟨.suffix, ?_, rfl⟩
    simp [read, afterMember?_of_ends ends (k := .opening .square) rfl, closing]

theorem run_primary {ks : List Kind} (derived : Primary ks) :
    ∃ p, Phase.member.run ks = some p ∧ p.wanted? = none :=
  match derived with
  | .call group => by
    obtain ⟨body, rfl, closed⟩ := run_group group
    exact ⟨.called, by simp [Phase.next?, closed, close], rfl⟩
  | .result group rest => by
    obtain ⟨body, rfl, closed⟩ := run_group group
    obtain ⟨p, rest_read, ends⟩ := run_expression rest
    exact ⟨p, by simp [Phase.next?, closed, close, rest_read], ends⟩
  | .word => ⟨.word, rfl, rfl⟩
  | .applied group | .round group | .curly group => by
    obtain ⟨body, rfl, closed⟩ := run_group group
    exact ⟨.suffix, by simp [Phase.next?, closed, close], rfl⟩

end

-- Groups that are still open, the innermost bracket first; `last` is the outermost one.
inductive Nested (last : Bracket) : List Bracket → List Kind → Prop where
  | outermost {ks : List Kind} : Items ks → Nested last [last] (.opening last :: ks)
  | inner {b o : Bracket} {outer : List Bracket} {ks ls : List Kind} :
      Nested last (o :: outer) ks → Items ls →
        Nested last (b :: o :: outer) (ks ++ .opening b :: ls)

theorem Nested.append {last : Bracket} {stack : List Bracket} {ks ls : List Kind}
    (nested : Nested last stack ks) (items : Items ls) : Nested last stack (ks ++ ls) := by
  cases nested with
  | outermost inside => exact .outermost (inside.append items)
  | @inner b _ _ _ _ around inside =>
    have longer := Nested.inner (b := b) around (inside.append items)
    simpa using longer

theorem Nested.close {last b o : Bracket} {outer : List Bracket} {ks : List Kind}
    (nested : Nested last (b :: o :: outer) ks) :
    Nested last (o :: outer) (ks ++ [.closing b]) := by
  cases nested with
  | inner around inside =>
    have closed := around.append (Items.group (b := b) inside .nil)
    simpa using closed

theorem Nested.group {last b : Bracket} {ks : List Kind} (nested : Nested last [b] ks) :
    last = b ∧ Group b (ks ++ [.closing b]) := by
  cases nested with
  | outermost inside => exact ⟨rfl, .enclosed inside⟩

def Leads (front : List Kind) : Prop := ∀ ks, Expression ks → Expression (front ++ ks)

theorem Leads.primary {front ks : List Kind} (leads : Leads front) (primary : Primary ks) :
    Expression (front ++ ks) :=
  leads ks (.member (.primary primary))

inductive Lead : Bool → Bracket → List Kind → Prop where
  | call : Lead true .round [.funKeyword]
  | applied : Lead false .angle [.word]
  | round : Lead false .round []
  | curly : Lead false .curly []

theorem Lead.primary {b : Bracket} {lead g : List Kind} (opened : Lead false b lead)
    (group : Group b g) : Primary (lead ++ g) := by
  cases opened with
  | applied => exact .applied group
  | round => exact .round group
  | curly => exact .curly group

def Reached : Phase → List Kind → Prop
  | .member, ks => Leads ks
  | .call, ks => ∃ front, Leads front ∧ ks = front ++ [.funKeyword]
  | .inside b outer isCall, ks => ∃ front lead last opened, Leads front ∧ Lead isCall last lead ∧
      Nested last (b :: outer) opened ∧ ks = front ++ (lead ++ opened)
  | .word, ks => ∃ front, Leads front ∧ ks = front ++ [.word]
  | .called, ks => ∃ front g, Leads front ∧ Group .round g ∧ ks = front ++ .funKeyword :: g
  | .suffix, ks => Expression ks
  | .square, ks => ∃ front, Expression front ∧ ks = front ++ [.opening .square]

theorem Reached.expression {p : Phase} {ks : List Kind} (reached : Reached p ks)
    (ends : p.wanted? = none) : Expression ks := by
  cases p with
  | word =>
    obtain ⟨front, leads, rfl⟩ := reached
    exact leads.primary .word
  | called =>
    obtain ⟨front, g, leads, group, rfl⟩ := reached
    exact leads.primary (.call group)
  | suffix => exact reached
  | _ => simp [Phase.wanted?] at ends

theorem Reached.afterMember {ks : List Kind} (derived : Expression ks) {k : Kind} {q : Phase}
    (taken : afterMember? k = some q) : Reached q (ks ++ [k]) := by
  unfold afterMember? at taken
  split at taken
  · cases taken
    exact derived.question
  · cases taken
    exact ⟨ks, derived, rfl⟩
  · cases taken
    intro ls more
    simpa using derived.pipe more
  · cases taken

theorem Reached.open {front lead : List Kind} {isCall : Bool} {b : Bracket} (leads : Leads front)
    (lead_ok : Lead isCall b lead) :
    Reached (.inside b [] isCall) (front ++ lead ++ [.opening b]) :=
  ⟨front, lead, b, [.opening b], leads, lead_ok, .outermost .nil, by simp⟩

theorem Reached.close {b : Bracket} {outer : List Bracket} {isCall : Bool} {ks : List Kind}
    (reached : Reached (.inside b outer isCall) ks) :
    Reached (close isCall outer) (ks ++ [.closing b]) := by
  obtain ⟨front, lead, last, opened, leads, lead_ok, nested, rfl⟩ := reached
  cases outer with
  | cons o outer => exact ⟨front, lead, last, _, leads, lead_ok, nested.close, by simp⟩
  | nil =>
    -- The outermost bracket closes: a call may get a result, any other group ends its primary.
    obtain ⟨rfl, group⟩ := nested.group
    cases isCall with
    | true =>
      cases lead_ok
      exact ⟨front, _, leads, group, by simp⟩
    | false =>
      have derived := leads.primary (lead_ok.primary group)
      change Expression _
      simpa using derived

-- One token more: each step of the machine is one production, or goes on inside a group.
theorem Reached.step {p q : Phase} {ks : List Kind} {k : Kind} (reached : Reached p ks)
    (taken : p.next? k = some q) : Reached q (ks ++ [k]) := by
  cases step_of_next? taken with
  | keyword | name => exact ⟨ks, reached, rfl⟩
  | round => simpa using Reached.open reached .round
  | curly => simpa using Reached.open reached .curly
  | params =>
    obtain ⟨front, leads, rfl⟩ := reached
    exact Reached.open leads .call
  | args =>
    obtain ⟨front, leads, rfl⟩ := reached
    exact Reached.open leads .applied
  | nest =>
    obtain ⟨front, lead, last, opened, leads, lead_ok, nested, rfl⟩ := reached
    exact ⟨front, lead, last, _, leads, lead_ok, .inner nested .nil, by simp⟩
  | inner inner =>
    obtain ⟨front, lead, last, opened, leads, lead_ok, nested, rfl⟩ := reached
    exact ⟨front, lead, last, _, leads, lead_ok, nested.append (.inner inner .nil), by simp⟩
  | close => exact reached.close
  | result =>
    -- The result is an expression of its own, so the whole waits for one like a union does.
    obtain ⟨front, g, leads, group, rfl⟩ := reached
    intro ls derived
    have joined := leads.primary (.result group derived)
    simpa using joined
  | after ends taken => exact .afterMember (reached.expression ends) taken
  | array =>
    obtain ⟨front, derived, rfl⟩ := reached
    change Expression _
    simpa using derived.array

theorem Reached.run {p q : Phase} {ks ls : List Kind} (reached : Reached p ks)
    (read : p.run ls = some q) : Reached q (ks ++ ls) := by
  induction ls generalizing p ks with
  | nil =>
    cases read
    simpa using reached
  | cons k ls ih =>
    simp only [Phase.run_cons, Option.bind_eq_some_iff] at read
    obtain ⟨m, taken, rest⟩ := read
    simpa using ih (reached.step taken) rest

theorem reached_of_run {p : Phase} {ks : List Kind} (read : Phase.member.run ks = some p) :
    Reached p ks := by
  have start : Reached .member [] := fun _ derived => derived
  exact start.run read

theorem expression_iff_run {ks : List Kind} :
    Expression ks ↔ ∃ p, Phase.member.run ks = some p ∧ p.wanted? = none :=
  ⟨run_expression, fun ⟨_, read, ends⟩ => (reached_of_run read).expression ends⟩

instance (ks : List Kind) : Decidable (Expression ks) :=
  decidable_of_iff ((Phase.member.run ks).any (fun p => p.wanted?.isNone) = true) (by
    rw [expression_iff_run]
    cases Phase.member.run ks <;> simp)

theorem getLast_word_iff {p : Phase} {ks : List Kind} (read : Phase.member.run ks = some p)
    (ends : p.wanted? = none) : ks.getLast? = some .word ↔ p = .word := by
  constructor
  · intro last
    obtain ⟨front, rfl⟩ := List.getLast?_eq_some_iff.mp last
    simp only [Phase.run_append, Phase.run_cons, Phase.run_nil, Option.bind_eq_some_iff] at read
    obtain ⟨m, _, q, taken, same⟩ := read
    cases same
    -- A word is read as a name or inside brackets, and inside brackets no term ends.
    cases step_of_next? taken with
    | name => rfl
    | inner => simp [Phase.wanted?] at ends
    | after _ taken => simp [afterMember?] at taken
  · rintro rfl
    obtain ⟨front, _, rfl⟩ := reached_of_run read
    simp

theorem endsInCall_iff {p : Phase} {ks : List Kind} (read : Phase.member.run ks = some p)
    (ends : p.wanted? = none) : EndsInCall ks ↔ p = .called := by
  constructor
  · rintro ⟨front, g, group, rfl⟩
    obtain ⟨body, rfl, closed⟩ := run_group group
    simp only [Phase.run_append, Phase.run_cons, Option.bind_eq_some_iff] at read
    obtain ⟨m, _, q, keyword, r, opened, rest⟩ := read
    cases step_of_next? keyword with
    | keyword =>
      cases opened
      rw [closed] at rest
      cases rest
      rfl
    | inner =>
      -- Inside brackets the call would close before they do.
      cases opened
      rw [closed] at rest
      cases rest
      simp [close, Phase.wanted?] at ends
    | after _ taken => simp [afterMember?] at taken
  · rintro rfl
    obtain ⟨front, g, _, group, rfl⟩ := reached_of_run read
    exact ⟨front, g, group, rfl⟩

theorem extends_iff {p : Phase} {ks : List Kind} (read : Phase.member.run ks = some p)
    (ends : p.wanted? = none) (k : Kind) : Extends ks k ↔ (p.next? k).isSome := by
  rw [Extends, getLast_word_iff read ends, endsInCall_iff read ends]
  cases p with
  | word | called | suffix =>
    cases k with
    | opening b => cases b <;> simp [Phase.next?, afterMember?]
    | _ => simp [Phase.next?, afterMember?]
  | _ => simp [Phase.wanted?] at ends

end DocHarvest.TypeTerm
