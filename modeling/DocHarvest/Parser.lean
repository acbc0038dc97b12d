import DocHarvest.Cursor

set_option autoImplicit false

namespace DocHarvest

abbrev Parser (α : Type) := Cursor → Option (α × Cursor)

namespace Parser

variable {α β : Type}

def succeed (a : α) : Parser α := fun c => some (a, c)

def fail : Parser α := fun _ => none

def matching (rule : Text → Option α) : Parser α := fun c =>
  match c.line? with
  | none => none
  | some line => (rule line).map fun a => (a, c.advance 1)

def satisfy (p : Text → Bool) : Parser Text := matching fun line => if p line then some line else none

def map (f : α → β) (p : Parser α) : Parser β := fun c =>
  (p c).map fun (a, c') => (f a, c')

def bind (p : Parser α) (next : α → Parser β) : Parser β := fun c =>
  match p c with
  | none => none
  | some (a, c') => next a c'

def choice : List (Parser α) → Parser α
  | [] => fail
  | p :: ps => fun c =>
    match p c with
    | some r => some r
    | none => choice ps c

def optional (p : Parser α) : Parser (Option α) := fun c =>
  match p c with
  | some (a, c') => some (some a, c')
  | none => some (none, c)

/-- All values of `p` until it fails or succeeds without taking a line; the value of such a success
still counts. -/
def values (p : Parser α) (c : Cursor) : List α × Cursor :=
  match p c with
  | none => ([], c)
  | some (a, c') =>
    if c'.after.length < c.after.length then
      let (as, last) := values p c'
      (a :: as, last)
    else ([a], c')
termination_by c.after.length

def many (p : Parser α) : Parser (List α) := fun c => some (values p c)

/-- The first success of `p` at this line or one of the next, at most `limit` lines in all. -/
def scanAhead (limit : Nat) (p : Parser α) : Parser α := fun c =>
  match limit with
  | 0 => none
  | limit + 1 =>
    if c.atEnd then none
    else
      match p c with
      | some r => some r
      | none => scanAhead limit p (c.advance 1)

def scanAheadBy (limit : Number) (p : Parser α) : Parser α := fun c =>
  scanAhead (limit.countBelow c.after.length) p c

def Progresses (p : Parser α) : Prop :=
  ∀ c a c', p c = some (a, c') → c'.after.length < c.after.length

theorem matching_progresses (rule : Text → Option α) : Progresses (matching rule) := by
  intro c a c' h
  cases hl : c.after with
  | nil => simp [matching, Cursor.line?, hl] at h
  | cons l ls =>
    simp only [matching, Cursor.line?, hl, List.head?_cons, Option.map_eq_some_iff,
      Prod.mk.injEq] at h
    obtain ⟨_, _, _, rfl⟩ := h
    simp [hl]

theorem scanAhead_progresses {p : Parser α} (limit : Nat) (hp : Progresses p) :
    Progresses (scanAhead limit p) := by
  induction limit with
  | zero => intro c a c' h; simp [scanAhead] at h
  | succ limit ih =>
    intro c a c' h
    rw [scanAhead] at h
    split at h
    · simp at h
    · split at h
      · next hr => exact hp c a c' (hr.trans h)
      · have := ih _ _ _ h
        simp only [Cursor.after_advance, List.length_drop] at this
        omega

end Parser

end DocHarvest
