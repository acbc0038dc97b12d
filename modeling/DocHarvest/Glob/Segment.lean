import DocHarvest.Glob.Class

set_option autoImplicit false

namespace DocHarvest.Glob

inductive Segment where
  | name (t : Text)
  | wild (pieces : List Piece)
  | globstar
  deriving Repr

def pieceOf (c : Char) : Piece := if c = '*' then .star else if c = '?' then .one else .char c

-- What the marks of a name may do in it. Whether they do is known once all groups are closed.
inductive Sign where
  | piece (p : Piece)
  | opening (times : Times) (c : Char)
  | bar
  | closing

def Sign.plain : Sign → List Piece
  | .piece p => [p]
  | .opening _ c => [pieceOf c, .char '(']
  | .bar => [.char '|']
  | .closing => [.char ')']

def plainly (ss : List Sign) : List Piece := ss.flatMap Sign.plain

@[simp] theorem plainly_nil : plainly [] = [] := rfl

@[simp] theorem plainly_cons (s : Sign) (ss : List Sign) :
    plainly (s :: ss) = s.plain ++ plainly ss := rfl

-- A bracket that opens no class is plain, and no groups are read after it.
def signs : List Mark → List Sign
  | [] => []
  | (c, escaped) :: ms =>
    if escaped then .piece (.char c) :: signs ms
    else if c = '[' then
      match _h : class? ms with
      | some (p, rest) => .piece p :: signs rest
      | none => .piece (.char '[') :: (plainly (signs ms)).map .piece
    else if c = '|' then .bar :: signs ms
    else if c = ')' then .closing :: signs ms
    else
      match Times.ofMark? c, ms with
      | some times, ('(', false) :: inner => .opening times c :: signs inner
      | _, ms => .piece (pieceOf c) :: signs ms
termination_by ms => ms.length
decreasing_by
  all_goals first
    | exact Nat.lt_succ_of_lt (length_of_class? _h)
    | (simp only [List.length_cons]; omega)

-- A group that is not closed yet. `opened` is what it stands for if it never is, together with all
-- that follows; the pieces before it and its alternatives so far are kept in reverse.
structure Frame where
  times : Times
  opened : List Piece
  outer : List Piece
  options : List (List Piece)

-- The pieces of a name. `frames` are the open groups, the innermost first, and `current` are the
-- pieces read in the innermost, in reverse. A group that is never closed is none, and no group is
-- read in it or after it.
def assemble (frames : List Frame) (current : List Piece) : List Sign → List Piece
  | [] =>
    match frames.getLast? with
    | none => current.reverse
    | some f => f.outer.reverse ++ f.opened
  | .piece p :: ss => assemble frames (p :: current) ss
  | .opening times c :: ss =>
    assemble (⟨times, plainly (.opening times c :: ss), current, []⟩ :: frames) [] ss
  | .bar :: ss =>
    match frames with
    | [] => assemble [] (.char '|' :: current) ss
    | f :: frames => assemble ({ f with options := current.reverse :: f.options } :: frames) [] ss
  | .closing :: ss =>
    match frames with
    | [] => assemble [] (.char ')' :: current) ss
    | f :: frames =>
      assemble frames (.group f.times (current.reverse :: f.options).reverse :: f.outer) ss

def pieces (t : Text) : List Piece := assemble [] [] (signs (marks t))

namespace Segment

-- A name that is one group without any text in it, such as `@()`, stands for itself.
def isHollow : List Piece → Bool
  | [.group times options] => times ≠ .never && options.all List.isEmpty
  | _ => false

def ofText (t : Text) : Segment :=
  if t = ['*', '*'] then .globstar
  else if (pieces t).all Piece.isPlain then .name ((pieces t).filterMap Piece.plain?)
  else if isHollow (pieces t) then .name t
  else .wild (pieces t)

end Segment

end DocHarvest.Glob
