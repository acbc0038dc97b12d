import DocHarvest.Comment.Annotation
import DocHarvest.Memo

set_option autoImplicit false

namespace DocHarvest.Comment

structure Pending (α : Type) where
  tail : Text
  finish : Tail → α

def pendingParam? (s : Settings) (line : Text) : Option (Pending Param) := do
  let t ← afterMarker? "@param" line
  let t ← Text.afterBlanks? t
  let (name, t) ← Text.run? isParamNameChar t
  let (marked, t) := match t with
    | '?' :: r => (true, r)
    | r => (false, r)
  let t ← Text.afterBlanks? t
  return ⟨← filling? t, fun tail =>
    ⟨name, orElse tail.type s.defaultParamType, tail.description, marked || tail.optional⟩⟩

def pendingReturns? (s : Settings) (line : Text) : Option (Pending Returns) := do
  let t ← afterMarker? "@return" line
  let t := match t with
    | 's' :: r => r
    | r => r
  let t ← Text.afterBlanks? t
  return ⟨← filling? t, fun tail => ⟨orElse tail.type s.defaultReturnType, tail.description⟩⟩

inductive TailRule where
  | param | returns
  deriving DecidableEq, Repr

def TailRule.pending? (s : Settings) (line : Text) : TailRule → Option (Pending Annotation)
  | .param => (pendingParam? s line).map fun x => ⟨x.tail, fun tail => .param (x.finish tail)⟩
  | .returns => (pendingReturns? s line).map fun x => ⟨x.tail, fun tail => .returns (x.finish tail)⟩

def TailRule.readWith (s : Settings) (rule : TailRule) (line : Text) (tails : Memo Text Tail) :
    Option Annotation × Memo Text Tail :=
  match rule.pending? s line with
  | none => (none, tails)
  | some x =>
    let (tail, tails) := tails.ask Tail.ofText x.tail
    (some (x.finish tail), tails)

def readAllWith (s : Settings) :
    List (TailRule × Text) → Memo Text Tail → List (Option Annotation) × Memo Text Tail
  | [], tails => ([], tails)
  | (rule, line) :: calls, tails =>
    let (a, tails) := rule.readWith s line tails
    let (as, tails) := readAllWith s calls tails
    (a :: as, tails)

end DocHarvest.Comment
