import DocHarvest.Text.Basic

set_option autoImplicit false

namespace DocHarvest.TypeTerm

inductive Bracket where
  | round | angle | square | curly
  deriving DecidableEq, Repr

inductive Kind where
  | opening (b : Bracket)
  | closing (b : Bracket)
  | hash | comma | colon | pipe | question
  | word
  | funKeyword
  deriving DecidableEq, Repr

structure Token where
  gap : Text
  kind : Kind
  text : Text
  deriving DecidableEq, Repr

def delimiter? : Char → Option Kind
  | '(' => some (.opening .round)
  | ')' => some (.closing .round)
  | '<' => some (.opening .angle)
  | '>' => some (.closing .angle)
  | '[' => some (.opening .square)
  | ']' => some (.closing .square)
  | '\x7b' => some (.opening .curly)
  | '\x7d' => some (.closing .curly)
  | '#' => some .hash
  | ',' => some .comma
  | ':' => some .colon
  | '|' => some .pipe
  | '?' => some .question
  | _ => none

def wordKind (run : Text) : Kind := if run = "fun".toList then .funKeyword else .word

def runToken (gap run : Text) : Token := ⟨gap.reverse, wordKind run.reverse, run.reverse⟩

/-- The tokens of a text and the blanks after the last one. `gap` and `run` hold, in reverse, the
blanks before the next token and the part of its run already read. -/
def tokensFrom (gap run : Text) : Text → List Token × Text
  | [] => if run = [] then ([], gap.reverse) else ([runToken gap run], [])
  | c :: t =>
    if Text.isBlank c then
      if run = [] then tokensFrom (c :: gap) [] t
      else
        let (ts, w) := tokensFrom [c] [] t
        (runToken gap run :: ts, w)
    else
      match delimiter? c with
      | some k =>
        let (ts, w) := tokensFrom [] [] t
        if run = [] then (⟨gap.reverse, k, [c]⟩ :: ts, w)
        else (runToken gap run :: ⟨[], k, [c]⟩ :: ts, w)
      | none => tokensFrom gap (c :: run) t

def tokens (t : Text) : List Token := (tokensFrom [] [] t).1

def spelling (ts : List Token) : Text := ts.flatMap fun t => t.gap ++ t.text

def phrase : List Token → Text
  | [] => []
  | t :: ts => t.text ++ spelling ts

end DocHarvest.TypeTerm
