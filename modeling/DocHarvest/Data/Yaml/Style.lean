import DocHarvest.Data.Yaml.Place
import DocHarvest.Text.Escape

set_option autoImplicit false

namespace DocHarvest.Yaml

def isPrintable (c : Char) : Bool :=
  let n := c.toNat
  n == 9 || n == 10 || n == 13 || n == 0x85 || (0x20 ≤ n && n < 0x7F) ||
    (0xA0 ≤ n && n != 0xFFFE && n != 0xFFFF)

def plainStartMarks : List Char :=
  ['#', '&', '*', '!', '|', '>', '\'', '"', '%', '@', '\x60']

def startsPlain (inFlow : Bool) (p : Place) : Bool :=
  match p.rest with
  | [] => false
  | c :: t =>
    let ends (d : Char) : Bool := isGapOrBreak d || (inFlow && isFlowMark d)
    if isGapOrBreak c || isFlowMark c || plainStartMarks.contains c then false
    else !((c == '?' || c == '-') && t.head?.any ends)

/-- Reads on in a plain scalar. `out` and `gap` hold, in reverse, the text so far and the blanks
after it, `breaks` the line breaks since, `before` the character before the place, and `last` the
place after the text so far. -/
def plainFrom (inFlow : Bool) (indent : Nat) :
    Nat → Text → Text → Nat → Char → Place → Place → Text × Place
  | 0, out, _, _, _, last, _ => (out, last)
  | fuel + 1, out, gap, breaks, before, last, p =>
    match p.rest with
    | [] => (out, p)
    | c :: t =>
      let ends (d : Char) : Bool := isGapOrBreak d || (inFlow && isFlowMark d)
      if (c == ':' && t.head?.any ends) || (c == '#' && isGapOrBreak before) ||
          (c != ':' && c != '#' && (atDocumentMark p || (inFlow && isFlowMark c))) then (out, p)
      else if isBreak c then
        let (n, q) := separation false p
        if indent ≤ q.indent then plainFrom inFlow indent fuel out [] n '\n' last q else (out, last)
      else
        let out := if breaks == 0 then out else (folded breaks).reverse ++ out
        if isGap c then plainFrom inFlow indent fuel out (c :: gap) 0 c last (p.skip 1)
        else plainFrom inFlow indent fuel (c :: (gap ++ out)) [] 0 c (p.skip 1) (p.skip 1)

def plain? (inFlow : Bool) (indent : Nat) (p : Place) : Option (Option (Text × Place)) :=
  if startsPlain inFlow p then
    let (out, q) := plainFrom inFlow indent (p.rest.length + 1) [] [] 0 ' ' p p
    if !out.all isPrintable then none
    else if out = [] then some none
    else some (some (out.reverse, q))
  else some none

def isQuotable (c : Char) : Bool := c == '\t' || 0x20 ≤ c.toNat

def singleQuotedFrom? : Nat → Text → Place → Option (Text × Place)
  | 0, _, _ => none
  | fuel + 1, out, p =>
    match p.rest with
    | [] => none
    | '\'' :: '\'' :: _ => singleQuotedFrom? fuel ('\'' :: out) (p.skip 2)
    | '\'' :: _ => some (out.reverse, p.skip 1)
    | c :: _ =>
      if isBreak c then
        let (n, q) := separation false p
        singleQuotedFrom? fuel ((folded n).reverse ++ out) q
      else if atDocumentMark p || !isQuotable c then none
      else singleQuotedFrom? fuel (c :: out) (p.skip 1)

def namedEscape? : Char → Option Char
  | '0' => some '\x00'
  | 'a' => some '\x07'
  | 'b' => some '\x08'
  | 't' => some '\t'
  | '\t' => some '\t'
  | 'n' => some '\n'
  | 'v' => some '\x0b'
  | 'f' => some '\x0c'
  | 'r' => some '\r'
  | 'e' => some '\x1b'
  | ' ' => some ' '
  | '"' => some '"'
  | '/' => some '/'
  | '\\' => some '\\'
  | 'N' => some '\u0085'
  | '_' => some '\u00a0'
  | 'L' => some '\u2028'
  | 'P' => some '\u2029'
  | _ => none

def escapeLength : Char → Nat
  | 'x' => 2
  | 'u' => 4
  | 'U' => 8
  | _ => 0

def doubleQuotedFrom? : Nat → Text → Place → Option (Text × Place)
  | 0, _, _ => none
  | fuel + 1, out, p =>
    match p.rest with
    | [] => none
    | '"' :: _ => some (out.reverse, p.skip 1)
    | ['\\'] => none
    | '\\' :: c :: t =>
      if isBreak c then doubleQuotedFrom? fuel out (separation false (p.skip 1)).2
      else
        match namedEscape? c with
        | some d => doubleQuotedFrom? fuel (d :: out) (p.skip 2)
        | none =>
          let n := escapeLength c
          let ds := t.take n
          if n == 0 || ds.length != n || ds.any (fun d => 16 ≤ Number.digitValue d) then none
          else
            let (d, after) := Text.escapedChar (Number.ofDigits 16 ds) (t.drop n)
            doubleQuotedFrom? fuel (d :: out) (p.skip (p.rest.length - after.length))
    | c :: _ =>
      if isBreak c then
        let (n, q) := separation false p
        doubleQuotedFrom? fuel ((folded n).reverse ++ out) q
      else if atDocumentMark p || !isQuotable c then none
      else doubleQuotedFrom? fuel (c :: out) (p.skip 1)

/-- `some none` if the place holds no quoted scalar. -/
def quoted? (p : Place) : Option (Option (Text × Place)) :=
  match p.rest with
  | '\'' :: _ => (singleQuotedFrom? (p.rest.length + 1) [] (p.skip 1)).map some
  | '"' :: _ => (doubleQuotedFrom? (p.rest.length + 1) [] (p.skip 1)).map some
  | _ => some none

inductive Chomping where
  | clip | strip | keep
  deriving DecidableEq

structure BlockHeader where
  chomping : Chomping
  width : Option Nat

def blockHeader? (h : BlockHeader) : Text → Option (BlockHeader × Nat)
  | [] => some (h, 0)
  | c :: t =>
    if c == '+' || c == '-' then
      if h.chomping != .clip then none
      else
        (blockHeader? { h with chomping := if c == '+' then .keep else .strip } t).map
          fun (h, n) => (h, n + 1)
    else if Text.isDigit c then
      if c == '0' || h.width.isSome then none
      else
        (blockHeader? { h with width := some (Number.digitValue c) } t).map fun (h, n) => (h, n + 1)
    else some (h, 0)

structure BlockStyle where
  isFolded : Bool
  chomping : Chomping

structure BlockText where
  out : Text
  hasContent : Bool
  indent : Nat
  fixed : Bool
  emptyLines : Nat
  /-- Whether the last line was indented beyond the block, which keeps its line breaks. -/
  deeper : Bool

def newlines (n : Nat) : Text := List.replicate n '\n'

def BlockText.breaksSoFar (b : BlockText) : Nat := if b.hasContent then 1 + b.emptyLines else b.emptyLines

def BlockText.chomped (style : BlockStyle) (b : BlockText) : Text :=
  match style.chomping with
  | .keep => newlines b.breaksSoFar ++ b.out
  | .clip => if b.hasContent then '\n' :: b.out else b.out
  | .strip => b.out

def BlockText.joint (style : BlockStyle) (startsBlank : Bool) (b : BlockText) : Text × Bool :=
  if !style.isFolded then (newlines b.breaksSoFar, b.deeper)
  else if startsBlank then (newlines b.breaksSoFar, true)
  else if b.deeper then (newlines (b.emptyLines + 1), false)
  else if b.emptyLines == 0 then (if b.hasContent then [' '] else [], false)
  else (newlines b.emptyLines, false)

def blockLines? (style : BlockStyle) : Nat → BlockText → Place → Option (Text × Place)
  | 0, _, _ => none
  | fuel + 1, b, p =>
    match p.rest with
    | [] => some (b.out, p)
    | _ :: _ =>
      match p.lineBreak? with
      | none => none
      | some q =>
        let q := q.countIndent (if b.fixed then some b.indent else none)
        let b := if !b.fixed && b.indent < q.indent then { b with indent := q.indent } else b
        match q.peek? with
        | some c =>
          if isBreak c then blockLines? style fuel { b with emptyLines := b.emptyLines + 1 } q
          else if q.indent < b.indent then some (b.chomped style, q)
          else
            let (joint, deeper) := b.joint style (isGap c)
            let (line, after) := q.upTo isBreak
            if !line.all isPrintable then none
            else
              blockLines? style fuel
                { b with
                  out := line.reverse ++ joint ++ b.out
                  hasContent := true
                  fixed := true
                  emptyLines := 0
                  deeper := deeper } after
        | none =>
          if q.indent < b.indent then some (b.chomped style, q)
          else some ((b.joint style false).1 ++ b.out, q)

def block? (indent : Nat) (p : Place) : Option (Option (Text × Place)) :=
  match p.rest with
  | c :: t =>
    if c != '|' && c != '>' then some none
    else
      match blockHeader? ⟨.clip, none⟩ t with
      | none => none
      | some (header, n) =>
        let (gap, q) := (p.skip (n + 1)).upTo fun d => !isGap d
        let q := if gap != [] && q.nextIs '#' then (q.upTo isBreak).2 else q
        let width := header.width
        let start : BlockText :=
          { out := []
            hasContent := false
            indent := match width with | some w => indent + w - 1 | none => indent
            fixed := width.isSome
            emptyLines := 0
            deeper := false }
        (blockLines? ⟨c == '>', header.chomping⟩ (p.rest.length + 1) start q).map
          fun (out, r) => some (out.reverse, r)
  | [] => some none

end DocHarvest.Yaml
