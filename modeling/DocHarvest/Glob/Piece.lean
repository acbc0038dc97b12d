import DocHarvest.Text.Units

set_option autoImplicit false

namespace DocHarvest.Glob

-- How often the alternatives of a group are taken: `@`, `?`, `*` and `+`. A group with `!` takes
-- any text but theirs.
inductive Times where
  | once
  | atMostOnce
  | anyTimes
  | atLeastOnce
  | never
  deriving DecidableEq, Repr

def Times.ofMark? : Char → Option Times
  | '@' => some .once
  | '?' => some .atMostOnce
  | '*' => some .anyTimes
  | '+' => some .atLeastOnce
  | '!' => some .never
  | _ => none

inductive Piece where
  | char (c : Char)
  | one
  | star
  | oneOf (negated : Bool) (ranges : List (Nat × Nat))
  | group (times : Times) (options : List (List Piece))
  deriving Repr

namespace Piece

def isPlain : Piece → Bool
  | .char _ => true
  | _ => false

def plain? : Piece → Option Char
  | .char c => some c
  | _ => none

def suffixes : List Nat → List (List Nat)
  | [] => [[]]
  | u :: us => (u :: us) :: suffixes us

-- At most `fuel` steps and then the rest. A step that takes nothing leads nowhere new, so the
-- length of the text is fuel enough.
def repeated (step : (List Nat → Bool) → List Nat → Bool) (rest : List Nat → Bool) :
    Nat → List Nat → Bool
  | 0, us => rest us
  | fuel + 1, us => rest us || step (repeated step rest fuel) us

-- The unit of a dot.
def dot : Nat := '.'.toNat

mutual

-- Whether a piece takes some first units and `rest` takes the others. At the start of a name no
-- wildcard takes a dot; this also holds for the first round of a group, and not for later ones.
def fits (first : Bool) (rest : List Nat → Bool) : Piece → List Nat → Bool
  | .char c, us => ((Text.charUnits c).isPrefixOf? us).any rest
  | .one, u :: us => !(first && u == dot) && rest us
  | .oneOf negated ranges, u :: us =>
    !(first && u == dot) && (negated != ranges.any fun (a, b) => a ≤ u && u ≤ b) && rest us
  | .one, [] | .oneOf _ _, [] => false
  | .star, us => !(first && us.head? == some dot) && (suffixes us).any rest
  | .group times options, us =>
    let again (us : List Nat) : Bool :=
      repeated (fun rest us => fitsAny false rest options us) rest us.length us
    match times with
    | .once => fitsAny first rest options us
    | .atMostOnce => rest us || fitsAny first rest options us
    | .anyTimes => rest us || fitsAny first again options us
    | .atLeastOnce => fitsAny first again options us
    | .never =>
      !(first && us.head? == some dot) && !fitsAny first rest options us && (suffixes us).any rest

def fitsAll (first : Bool) (rest : List Nat → Bool) : List Piece → List Nat → Bool
  | [], us => rest us
  | p :: ps, us => fits first (fun us => fitsAll false rest ps us) p us

def fitsAny (first : Bool) (rest : List Nat → Bool) : List (List Piece) → List Nat → Bool
  | [], _ => false
  | option :: options, us => fitsAll first rest option us || fitsAny first rest options us

end

end Piece

def matchesName (ps : List Piece) (name : Text) : Bool :=
  Piece.fitsAll true List.isEmpty ps (Text.units name)

end DocHarvest.Glob
