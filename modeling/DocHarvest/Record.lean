import DocHarvest.Block
import DocHarvest.Signature
import DocHarvest.Text.Lines

set_option autoImplicit false

namespace DocHarvest

structure Record where
  name : Text
  params : List Param
  returns : Returns
  generics : List Generic
  description : Text
  examples : List Example
  line : Int
  deriving DecidableEq, Repr

def Block.param? (b : Block) (name : Text) : Option Param := b.params.find? (·.name == name)

def Block.paramsFor (b : Block) (s : Settings) (names : List Text) : List Param :=
  names.map fun name => (b.param? name).getD ⟨name, s.defaultParamType, [], false⟩

def isPrivate (lead : Text) (name : Text) : Bool := (name.splitOn '.').any lead.isPrefixOf

namespace Record

def ofParts (s : Settings) (sig : Signature) (b : Block) : Record where
  name := sig.name
  params := b.paramsFor s sig.params
  returns := b.returns
  generics := b.generics
  description := [' '].intercalate b.description
  examples := b.examples
  line := sig.line

/-- All records from a place on. A block without a definition in reach documents nothing, and a
private definition is passed over. -/
def scan (s : Settings) (c : Cursor) : List Record :=
  match _hc : c.after with
  | [] => []
  | _ :: _ =>
    match _hb : Block.parser s c with
    | none => scan s (c.advance 1)
    | some (block, c₁) =>
      match _hs : Signature.findWithin s.lookahead c₁ with
      | none => scan s c₁
      | some (sig, c₂) =>
        let record := ofParts s sig block
        if isPrivate s.privatePrefix record.name then scan s c₂ else record :: scan s c₂
termination_by c.after.length
decreasing_by
  · simp [_hc]
  · exact Block.parser_progresses s c block c₁ _hb
  all_goals
    exact Nat.lt_trans (Signature.findWithin_progresses s.lookahead c₁ sig c₂ _hs)
      (Block.parser_progresses s c block c₁ _hb)

def ofLines (s : Settings) (lines : List Text) : List Record :=
  scan s (Cursor.start lines (Context.outside s.defaultCodeLang))

def ofText (s : Settings) (t : Text) : List Record := ofLines s (Text.lines t)

end Record

end DocHarvest
