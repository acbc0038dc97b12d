import DocHarvest.Data.Value
import DocHarvest.Text.Escape

/-!
JSON text read as a value. The reader is strict: no trailing comma, no comment, no leading zero, no
raw control character in a string, nothing after the value but blanks.
-/

set_option autoImplicit false

namespace DocHarvest.Json

def isSpace (c : Char) : Bool := c == ' ' || c == '\t' || c == '\n' || c == '\r'

def skip (t : Text) : Text := t.dropWhile isSpace

def simpleEscape? : Char → Option Char
  | '"' => some '"'
  | '\\' => some '\\'
  | '/' => some '/'
  | 'b' => some '\x08'
  | 'f' => some '\x0c'
  | 'n' => some '\n'
  | 'r' => some '\r'
  | 't' => some '\t'
  | _ => none

def stringFrom? : Nat → Text → Text → Option (Text × Text)
  | 0, _, _ => none
  | _ + 1, _, [] => none
  | _ + 1, read, '"' :: t => some (read.reverse, t)
  | fuel + 1, read, '\\' :: 'u' :: t =>
    match Text.hex4? t with
    | some (unit, r) =>
      let (c, r') := Text.escapedChar unit r
      stringFrom? fuel (c :: read) r'
    | none => none
  | fuel + 1, read, '\\' :: c :: t =>
    match simpleEscape? c with
    | some d => stringFrom? fuel (d :: read) t
    | none => none
  | fuel + 1, read, c :: t =>
    if c.toNat < 0x20 || c == '\\' then none else stringFrom? fuel (c :: read) t

def string? (t : Text) : Option (Text × Text) := stringFrom? (t.length + 1) [] t

def isNumberChar (c : Char) : Bool :=
  Text.isDigit c || c == '-' || c == '+' || c == '.' || c == 'e' || c == 'E'

def wellFormedNumber (t : Text) : Bool :=
  let whole := t.takeWhile Text.isDigit
  let wholeOk := whole == ['0'] || (whole != [] && whole.head? != some '0')
  let fractionOk := match t.dropWhile Text.isDigit with
    | '.' :: c :: _ => Text.isDigit c
    | ['.'] => false
    | _ => true
  wholeOk && fractionOk

def number? (t : Text) : Option (Number × Text) :=
  let lexeme := t.takeWhile isNumberChar
  let (negative, unsigned) := match lexeme with
    | '-' :: r => (true, r)
    | r => (false, r)
  if wellFormedNumber unsigned then
    (Number.readUnsigned? negative unsigned).map fun x => (x, t.dropWhile isNumberChar)
  else none

mutual

def value? : Nat → Text → Option (Value × Text)
  | 0, _ => none
  | fuel + 1, t =>
    match skip t with
    | [] => none
    | '"' :: r => (string? r).map fun (s, r') => (.text s, r')
    | '[' :: r =>
      match skip r with
      | ']' :: r' => some (.list [], r')
      | r' => items? fuel [] r'
    | '\x7b' :: r =>
      match skip r with
      | '\x7d' :: r' => some (.record [], r')
      | r' => fields? fuel [] r'
    | r =>
      match Text.after? "true" r, Text.after? "false" r, Text.after? "null" r with
      | some r', _, _ => some (.bool true, r')
      | _, some r', _ => some (.bool false, r')
      | _, _, some r' => some (.null, r')
      | _, _, _ => (number? r).map fun (x, r') => (.number x, r')

def items? : Nat → List Value → Text → Option (Value × Text)
  | 0, _, _ => none
  | fuel + 1, read, t =>
    match value? fuel t with
    | none => none
    | some (v, r) =>
      match skip r with
      | ',' :: r' => items? fuel (v :: read) r'
      | ']' :: r' => some (.list (v :: read).reverse, r')
      | _ => none

def fields? : Nat → Fields → Text → Option (Value × Text)
  | 0, _, _ => none
  | fuel + 1, read, t =>
    match skip t with
    | '"' :: r =>
      match string? r with
      | none => none
      | some (k, r') =>
        match skip r' with
        | ':' :: r'' =>
          match value? fuel r'' with
          | none => none
          | some (v, rest) =>
            match skip rest with
            | ',' :: rest' => fields? fuel ((k, v) :: read) rest'
            | '\x7d' :: rest' => some (Value.ofEntries ((k, v) :: read).reverse, rest')
            | _ => none
        | _ => none
    | _ => none

end

/-- Every step of the reader takes a character, so the length of the text bounds their number. -/
def read? (t : Text) : Option Value :=
  match value? (2 * t.length + 2) t with
  | some (v, rest) => if skip rest = [] then some v else none
  | none => none

end DocHarvest.Json
