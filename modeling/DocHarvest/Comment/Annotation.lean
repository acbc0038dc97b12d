import DocHarvest.Comment.Marker
import DocHarvest.Settings.Basic
import DocHarvest.TypeTerm.Tail

set_option autoImplicit false

namespace DocHarvest

structure Param where
  name : Text
  type : Text
  description : Text
  optional : Bool
  deriving DecidableEq, Repr

structure Returns where
  type : Text
  description : Text
  deriving DecidableEq, Repr

structure Generic where
  name : Text
  type : Text
  deriving DecidableEq, Repr

inductive Annotation where
  | generic (g : Generic)
  | param (p : Param)
  | returns (r : Returns)
  | fenceOpen (lang : Text)
  | fenceClose
  | prose (text : Text)
  deriving DecidableEq, Repr

namespace Comment

def afterMarker? (lead : String) (line : Text) : Option Text :=
  (body? line).bind fun t => Text.after? lead (Text.dropBlanks t)

def filling? (t : Text) : Option Text :=
  let shown := Text.trimEnd t
  if shown != [] && Text.oneLine shown then some shown else none

def orElse (t fallback : Text) : Text := if t = [] then fallback else t

def generic? (s : Settings) (line : Text) : Option Generic := do
  let t ← afterMarker? "@generic" line
  let t ← Text.afterBlanks? t
  let (name, _) ← Text.run? Text.isWord t
  return ⟨name, s.defaultParamType⟩

def isParamNameChar (c : Char) : Bool := Text.isWord c || c == '.'

def param? (s : Settings) (line : Text) : Option Param := do
  let t ← afterMarker? "@param" line
  let t ← Text.afterBlanks? t
  let (name, t) ← Text.run? isParamNameChar t
  let (marked, t) := match t with
    | '?' :: r => (true, r)
    | r => (false, r)
  let t ← Text.afterBlanks? t
  let tail := Tail.ofText (← filling? t)
  return ⟨name, orElse tail.type s.defaultParamType, tail.description, marked || tail.optional⟩

def returns? (s : Settings) (line : Text) : Option Returns := do
  let t ← afterMarker? "@return" line
  let t := match t with
    | 's' :: r => r
    | r => r
  let t ← Text.afterBlanks? t
  let tail := Tail.ofText (← filling? t)
  return ⟨orElse tail.type s.defaultReturnType, tail.description⟩

def fenceOpen? (s : Settings) (line : Text) : Option Text :=
  (afterMarker? "```" line).map fun t =>
    orElse ((Text.dropBlanks t).takeWhile Text.isWord) s.defaultCodeLang

def closesFence (line : Text) : Bool :=
  match afterMarker? "```" line with
  | some t => Text.allBlank t
  | none => false

def codeText (t : Text) : Text :=
  Text.trimEnd (match t with
    | ' ' :: r => r
    | r => r)

def code? (line : Text) : Option Text :=
  (body? line).bind fun t => if Text.oneLine t then some (codeText t) else none

def prose? (line : Text) : Option Text :=
  (body? line).bind fun t =>
    let shown := Text.trim t
    if Text.oneLine shown then some shown else none

def isEmpty (line : Text) : Bool :=
  match body? line with
  | some t => Text.allBlank t
  | none => false

def headerTitle? (t : Text) : Option Text :=
  match Text.afterIgnoringCase? "behavio" t with
  | some r => (Text.afterIgnoringCase? "ur" r).or (Text.afterIgnoringCase? "r" r)
  | none => Text.afterIgnoringCase? "performance" t

def skipNotes (t : Text) : Text :=
  match (Text.afterBlanks? t).bind (Text.afterIgnoringCase? "note") with
  | some r => (Text.afterIgnoringCase? "s" r).getD r
  | none => t

def isHeader (line : Text) : Bool :=
  match (body? line).bind fun t => headerTitle? (Text.dropBlanks t) with
  | some t =>
    match Text.dropBlanks (skipNotes t) with
    | ':' :: r => Text.allBlank r
    | r => r == []
  | none => false

def isIgnored (line : Text) : Bool := isEmpty line || isHeader line

/-- A line outside a fence; `some none` is a comment line that says nothing. -/
def outsideFence? (s : Settings) (line : Text) : Option (Option Annotation) :=
  if let some g := generic? s line then some (some (.generic g))
  else if let some p := param? s line then some (some (.param p))
  else if let some r := returns? s line then some (some (.returns r))
  else if let some lang := fenceOpen? s line then some (some (.fenceOpen lang))
  else if isIgnored line then some none
  else (prose? line).map fun t => some (.prose t)

def insideFence? (line : Text) : Option (Option Annotation) :=
  if closesFence line then some (some .fenceClose)
  else (code? line).map fun t => some (.prose t)

def annotation? (s : Settings) (inFence : Bool) (line : Text) : Option (Option Annotation) :=
  if inFence then insideFence? line else outsideFence? s line

end Comment

end DocHarvest
