set_option autoImplicit false

/-!
A table of answers already computed, in the order of the first question. An entry may record that
the computation gave no value; such an entry is computed again when it is next asked for.
-/

namespace DocHarvest

structure Memo (κ υ : Type) where
  entries : List (κ × Option υ)

namespace Memo

variable {κ υ : Type}

def empty : Memo κ υ := ⟨[]⟩

variable [BEq κ]

def contains (m : Memo κ υ) (k : κ) : Bool := m.entries.any (·.1 == k)

def get? (m : Memo κ υ) (k : κ) : Option υ := (m.entries.lookup k).join

def putIn (k : κ) (v : Option υ) : List (κ × Option υ) → List (κ × Option υ)
  | [] => [(k, v)]
  | (j, w) :: rest => if j == k then (j, v) :: rest else (j, w) :: putIn k v rest

def put (m : Memo κ υ) (k : κ) (v : Option υ) : Memo κ υ := ⟨putIn k v m.entries⟩

def keys (m : Memo κ υ) : List κ := m.entries.map Prod.fst

/-- The recorded answer, or the computed one, which is recorded. The computation has a state of its
own that it changes only when it runs. -/
def askWith {σ : Type} (f : κ → σ → Option υ × σ) (k : κ) (s : σ) (m : Memo κ υ) :
    Option υ × σ × Memo κ υ :=
  match m.get? k with
  | some v => (some v, s, m)
  | none =>
    let (v, s') := f k s
    (v, s', m.put k v)

def ask (f : κ → υ) (k : κ) (m : Memo κ υ) : υ × Memo κ υ :=
  match m.get? k with
  | some v => (v, m)
  | none => (f k, m.put k (some (f k)))

def askAll (f : κ → υ) : List κ → Memo κ υ → List υ × Memo κ υ
  | [], m => ([], m)
  | k :: ks, m =>
    let (v, m') := m.ask f k
    let (vs, m'') := askAll f ks m'
    (v :: vs, m'')

end Memo

end DocHarvest
