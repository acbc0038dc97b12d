import DocHarvest.TypeTerm.Token

/-!
Type terms read from the left, one token at a time and without a step back:

    expression = member , { "|" , member }
    member     = primary , { "?" | "[" , "]" }
    primary    = "fun" , round , [ ":" , expression ] | word , [ angle ] | round | curly
    group      = opener , { group | any token but a closer } , its closer

A `Phase` is the place reached inside this grammar. Since a group may hold anything balanced, the
only memory a phase needs is the stack of brackets still open.
-/

set_option autoImplicit false

namespace DocHarvest.TypeTerm

inductive Phase where
  | member
  | call
  /-- Inside brackets, the innermost one apart; `isCall` tells whether they hold the parameters of
  the keyword. -/
  | inside (innermost : Bracket) (outer : List Bracket) (isCall : Bool)
  | word
  | called
  | suffix
  | square
  deriving DecidableEq, Repr

inductive Wanted where
  | member
  | token (k : Kind)
  deriving DecidableEq, Repr

def Phase.wanted? : Phase → Option Wanted
  | .member => some .member
  | .call => some (.token (.opening .round))
  | .inside b _ _ => some (.token (.closing b))
  | .square => some (.token (.closing .square))
  | .word | .called | .suffix => none

def afterMember? : Kind → Option Phase
  | .question => some .suffix
  | .opening .square => some .square
  | .pipe => some .member
  | _ => none

def close (isCall : Bool) : List Bracket → Phase
  | [] => if isCall then .called else .suffix
  | b :: outer => .inside b outer isCall

def Phase.next? : Phase → Kind → Option Phase
  | .member, .funKeyword => some .call
  | .member, .word => some .word
  | .member, .opening .round => some (.inside .round [] false)
  | .member, .opening .curly => some (.inside .curly [] false)
  | .member, _ => none
  | .call, .opening .round => some (.inside .round [] true)
  | .call, _ => none
  | .inside b outer isCall, .opening o => some (.inside o (b :: outer) isCall)
  | .inside b outer isCall, .closing c => if c = b then some (close isCall outer) else none
  | .inside b outer isCall, _ => some (.inside b outer isCall)
  | .word, .opening .angle => some (.inside .angle [] false)
  | .word, k => afterMember? k
  | .called, .colon => some .member
  | .called, k => afterMember? k
  | .suffix, k => afterMember? k
  | .square, .closing .square => some .suffix
  | .square, _ => none

structure Reading where
  taken : List Token
  rest : List Token
  optional : Bool
  deriving DecidableEq, Repr

structure Fault where
  wanted : Wanted
  found : Text
  deriving DecidableEq, Repr

def finish (phase : Phase) (rest : List Token) : Except Fault Reading :=
  match phase.wanted? with
  | none => .ok ⟨[], rest, false⟩
  | some w => .error ⟨w, (rest.head?.map Token.text).getD []⟩

/-- Whether this token is the `?` of a member that is not in a function result. -/
def marksOptional (inResult : Bool) (k : Kind) (next : Phase) : Bool :=
  !inResult && k == .question && next == .suffix

def read (phase : Phase) (inResult : Bool) : List Token → Except Fault Reading
  | [] => finish phase []
  | t :: ts =>
    match phase.next? t.kind with
    | none => finish phase (t :: ts)
    | some next =>
      match read next (inResult || phase == .called && t.kind == .colon) ts with
      | .error e => .error e
      | .ok r => .ok ⟨t :: r.taken, r.rest, r.optional || marksOptional inResult t.kind next⟩

def allowedIn (b : Bracket) : Kind → Bool
  | .closing c => c == b
  | _ => true

/-- Whether a text starts with a type at all, judged by its first three tokens. -/
def startsTerm : List Kind → Bool
  | .word :: _ => true
  | .funKeyword :: .opening .round :: c :: _ => allowedIn .round c
  | .opening a :: rest =>
    (a == .round || a == .curly) &&
      match rest with
      | .closing b :: _ => a == b
      | .opening b :: c :: _ => allowedIn b c
      | [] | [_] => false
      | _ :: c :: _ => allowedIn a c
  | _ => false

def readTerm (ts : List Token) : Except Fault Reading :=
  if startsTerm (ts.map Token.kind) then read .member false ts else .ok ⟨[], ts, false⟩

end DocHarvest.TypeTerm
