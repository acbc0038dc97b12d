set_option autoImplicit false

namespace DocHarvest

structure Arguments (α : Type) where
  given : List α
  missing : Nat
  deriving Repr

namespace Arguments

variable {α : Type}

def none (arity : Nat) : Arguments α := ⟨[], arity⟩

def complete (a : Arguments α) : Bool := a.missing == 0

def feed (absent : α) (a : Arguments α) (group : List α) : Arguments α :=
  let taken := match group with
    | [] => [absent]
    | x :: xs => if (x :: xs).length ≤ a.missing then x :: xs else [x]
  ⟨a.given ++ taken, a.missing - taken.length⟩

end Arguments

end DocHarvest
