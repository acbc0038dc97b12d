set_option autoImplicit false

namespace DocHarvest

abbrev Text := List Char

namespace Text

-- White space of the scanned format: the ASCII blanks, the space separators, both line
-- separators and the byte order mark.
def isBlank (c : Char) : Bool :=
  let n := c.toNat
  (9 ≤ n && n ≤ 13) || n == 0x20 || n == 0xA0 || n == 0x1680 || (0x2000 ≤ n && n ≤ 0x200A) ||
    n == 0x2028 || n == 0x2029 || n == 0x202F || n == 0x205F || n == 0x3000 || n == 0xFEFF

/-- Characters that end a line; they are blank, and no captured text may hold one. -/
def isTerminator (c : Char) : Bool :=
  c == '\n' || c == '\r' || c == '\u2028' || c == '\u2029'

def isDigit (c : Char) : Bool := '0' ≤ c && c ≤ '9'

def isLetter (c : Char) : Bool := ('a' ≤ c && c ≤ 'z') || ('A' ≤ c && c ≤ 'Z')

def isNameStart (c : Char) : Bool := isLetter c || c == '_'

def isWord (c : Char) : Bool := isNameStart c || isDigit c

theorem isBlank_of_isTerminator {c : Char} (h : isTerminator c = true) : isBlank c = true := by
  simp only [isTerminator, Bool.or_eq_true, beq_iff_eq] at h
  rcases h with ((rfl | rfl) | rfl) | rfl <;> decide

def dropBlanks (t : Text) : Text := t.dropWhile isBlank

def trimEnd (t : Text) : Text := (t.reverse.dropWhile isBlank).reverse

def trim (t : Text) : Text := trimEnd (dropBlanks t)

def allBlank (t : Text) : Bool := t.all isBlank

def oneLine (t : Text) : Bool := t.all fun c => !isTerminator c

def after? (lead : String) (t : Text) : Option Text := lead.toList.isPrefixOf? t

def includes (part : String) : Text → Bool
  | [] => part.toList.isEmpty
  | c :: t => (after? part (c :: t)).isSome || includes part t

def lowerLetter (c : Char) : Char :=
  if 'A' ≤ c && c ≤ 'Z' then Char.ofNat (c.toNat + 32) else c

/-- Like `after?` for a lower-case `lead`, read without regard to the case of ASCII letters. -/
def afterIgnoringCase? (lead : String) (t : Text) : Option Text :=
  let n := lead.toList.length
  if (t.take n).map lowerLetter == lead.toList then some (t.drop n) else none

def afterBlanks? : Text → Option Text
  | [] => none
  | c :: t => if isBlank c then some (dropBlanks t) else none

def run? (p : Char → Bool) (t : Text) : Option (Text × Text) :=
  if t.takeWhile p = [] then none else some (t.takeWhile p, t.dropWhile p)

end Text

end DocHarvest
