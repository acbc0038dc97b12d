import DocHarvest.Glob.Piece

set_option autoImplicit false

namespace DocHarvest.Glob

-- The ranges between two members of a class; an end beyond the basic plane counts by its units.
def rangesBetween (a b : Char) : List (Nat × Nat) :=
  let low := Text.charUnits a
  let high := Text.charUnits b
  let single (u : Nat) : Nat × Nat := (u, u)
  let middle := match low.getLast?, high.head? with
    | some x, some y => if x ≤ y then [(x, y)] else []
    | _, _ => []
  low.dropLast.map single ++ middle ++ (high.drop 1).map single

def rangesOf (c : Char) : List (Nat × Nat) := (Text.charUnits c).map fun u => (u, u)

def rangesAmong (ends : List (Char × Char)) : List (Nat × Nat) :=
  ends.flatMap fun (a, b) => rangesBetween a b

-- Classes with a name, such as `[:digit:]`. Only their ASCII members are known here. The class `print`
-- holds, against its name, the characters that do not print.
def namedClasses : List (String × List (Nat × Nat)) :=
  [("alnum", rangesAmong [('0', '9'), ('A', 'Z'), ('a', 'z')]),
   ("alpha", rangesAmong [('A', 'Z'), ('a', 'z')]),
   ("ascii", rangesAmong [('\x00', '\x7f')]),
   ("blank", rangesAmong [('\t', '\t'), (' ', ' ')]),
   ("cntrl", rangesAmong [('\x00', '\x1f'), ('\x7f', '\x7f')]),
   ("digit", rangesAmong [('0', '9')]),
   ("graph", rangesAmong [('!', '~')]),
   ("lower", rangesAmong [('a', 'z')]),
   ("print", rangesAmong [('\x00', '\x1f'), ('\x7f', '\x7f')]),
   ("punct", rangesAmong [('!', '#'), ('%', '*'), (',', '/'), (':', ';'), ('?', '@'), ('[', ']'),
     ('_', '_'), ('\x7b', '\x7b'), ('\x7d', '\x7d')]),
   ("space", rangesAmong [('\t', '\r'), (' ', ' ')]),
   ("upper", rangesAmong [('A', 'Z')]),
   ("word", rangesAmong [('0', '9'), ('A', 'Z'), ('_', '_'), ('a', 'z')]),
   ("xdigit", rangesAmong [('0', '9'), ('A', 'F'), ('a', 'f')])]

-- A character of a pattern, and whether a backslash takes its meaning.
abbrev Mark := Char × Bool

def marks : Text → List Mark
  | [] => []
  | '\\' :: c :: t => (c, true) :: marks t
  | c :: t => (c, false) :: marks t

def named? (ms : List Mark) : Option (List (Nat × Nat) × Nat) :=
  namedClasses.findSome? fun (name, ranges) =>
    let spelling : List Mark := (":" ++ name ++ ":]").toList.map fun c => (c, false)
    if spelling.isPrefixOf ms then some (ranges, spelling.length) else none

-- The members of a class up to its closing bracket, and what follows it; the first `skipped` marks
-- belong to a name. A bracket that closes nothing yet is a member, and so is a dash before the
-- closing bracket. A range that ends in a named class leaves the whole class without members.
def members? (started : Bool) (found : List (Nat × Nat)) :
    Nat → List Mark → Option (List (Nat × Nat) × List Mark)
  | _, [] => none
  | skipped + 1, _ :: ms => members? started found skipped ms
  | 0, (a, escaped) :: ms =>
    if started && a == ']' && !escaped then some (found, ms)
    else
      match if a == '[' && !escaped then named? ms else none with
      | some (ranges, length) => members? true (found ++ ranges) length ms
      | none =>
        match ms with
        | ('-', false) :: (']', false) :: ms => some (found ++ rangesOf a ++ rangesOf '-', ms)
        | ('-', false) :: (b, b_escaped) :: ms =>
          match if b == '[' && !b_escaped then named? ms else none with
          | some (_, length) => (members? true [] length ms).map fun (_, rest) => ([], rest)
          | none => members? true (found ++ rangesBetween a b) 0 ms
        | ms => members? true (found ++ rangesOf a) 0 ms

theorem length_of_members? {started : Bool} {found rs : List (Nat × Nat)} {skipped : Nat}
    {ms rest : List Mark} (h : members? started found skipped ms = some (rs, rest)) :
    rest.length < ms.length := by
  fun_induction members? started found skipped ms generalizing rs <;>
    grind [Option.map_eq_some_iff]

-- A class of one character is that character, and one without members takes nothing.
def classOf (negated : Bool) : List (Nat × Nat) → Piece
  | [] => .oneOf false []
  | [(a, b)] =>
    if !negated && a = b && Text.charUnits (Char.ofNat a) == [a] then .char (Char.ofNat a)
    else .oneOf negated [(a, b)]
  | ranges => .oneOf negated ranges

def class? (ms : List Mark) : Option (Piece × List Mark) :=
  let negated := ms.head? = some ('!', false) || ms.head? = some ('^', false)
  (members? false [] 0 (if negated then ms.drop 1 else ms)).map fun (ranges, rest) =>
    (classOf negated ranges, rest)

theorem length_of_class? {ms rest : List Mark} {p : Piece} (h : class? ms = some (p, rest)) :
    rest.length < ms.length := by
  obtain ⟨⟨ranges, left⟩, read, same⟩ := Option.map_eq_some_iff.mp h
  cases same
  apply Nat.lt_of_lt_of_le (length_of_members? read)
  split <;> simp

end DocHarvest.Glob
