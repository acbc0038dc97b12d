import DocHarvest.Data.Yaml.Scalar
import DocHarvest.Data.Yaml.Style

set_option autoImplicit false

namespace DocHarvest.Yaml

inductive Mode where
  | blockOut | blockIn | flowOut | flowIn
  deriving DecidableEq

def Mode.isBlock : Mode → Bool
  | .blockOut | .blockIn => true
  | .flowOut | .flowIn => false

inductive Content where
  | plain (t : Text)
  | quoted (t : Text)
  | built (v : Value)

structure Node where
  value : Value
  isMerge : Bool
  found : Bool

def keyText? : Value → Option Text
  | .list items =>
    if items.any fun v => match v with | .list _ => true | _ => false then none
    else some (Value.list items).display
  | v => some v.display

/-- Fields of a mapping; `inherited` lists the keys that a merge brought in, which the mapping's own
fields may replace. -/
structure Mapping where
  fields : Fields
  inherited : List Text

def Mapping.empty : Mapping := ⟨[], []⟩

def Mapping.inherit (m : Mapping) (source : Fields) : Mapping :=
  source.foldl (fun m (k, v) =>
    if m.fields.keys.contains k then m else ⟨m.fields ++ [(k, v)], k :: m.inherited⟩) m

def mergeSource? : Value → Option Fields
  | .record fields => some fields
  | .list items => some (items.zipIdx.map fun (v, i) => (Nat.toDigits 10 i, v))
  | .date _ => some []
  | _ => none

def Mapping.merge? (m : Mapping) : Value → Option Mapping
  | .list items =>
    items.foldl (fun m? v => m?.bind fun m => (mergeSource? v).map m.inherit) (some m)
  | v => (mergeSource? v).map m.inherit

def Mapping.store? (m : Mapping) (key : Node) (v : Value) : Option Mapping :=
  if key.isMerge then m.merge? v
  else
    (keyText? key.value).bind fun k =>
      if m.fields.keys.contains k && !m.inherited.contains k then none
      else some ⟨m.fields.put k v, m.inherited.filter (· != k)⟩

def Mapping.value (m : Mapping) : Value := .record m.fields.arrange

def coreTag (name : String) : Text := "tag:yaml.org,2002:".toList ++ name.toList

def tag? (p : Place) : Option (Text × Place) :=
  match p.rest with
  | '!' :: '<' :: _ =>
    let (name, q) := (p.skip 2).upTo fun c => c == '>' || isBreak c
    if q.nextIs '>' then some (name, q.skip 1) else none
  | '!' :: '!' :: _ =>
    let (name, q) := (p.skip 2).upTo isGapOrBreak
    if name.any fun c => c == '!' || isFlowMark c then none
    else some ("tag:yaml.org,2002:".toList ++ name, q)
  | _ =>
    let (name, q) := (p.skip 1).upTo isGapOrBreak
    if name.any fun c => c == '!' || isFlowMark c then none else some ('!' :: name, q)

def anchorName? (p : Place) : Option (Text × Place) :=
  let (name, q) := (p.skip 1).upTo fun c => isGapOrBreak c || isFlowMark c
  if name = [] then none else some (name, q)

def asScalar : Option Content → Option Text
  | some (.plain t) | some (.quoted t) => some t
  | some (.built _) => none
  | none => some []

def tagged? (tag : Text) (content : Option Content) : Option Value :=
  if tag = ['!'] then
    match content with
    | some (.built v) => some v
    | some (.plain t) | some (.quoted t) => some (.text t)
    | none => some .null
  else if tag = coreTag "str" then (asScalar content).map .text
  else if tag = coreTag "null" then
    (asScalar content).bind fun t => if isNull t then some .null else none
  else if tag = coreTag "bool" then (asScalar content).bind fun t => (bool? t).map .bool
  else if tag = coreTag "int" then (asScalar content).bind fun t => (int? t).map .number
  else if tag = coreTag "float" then (asScalar content).bind fun t => (float? t).map .number
  else if tag = coreTag "timestamp" then
    (asScalar content).bind fun t => (instant? t).map .date
  else if tag = coreTag "seq" then
    match content with
    | some (.built (.list items)) => some (.list items)
    | none => some (.list [])
    | _ => none
  else if tag = coreTag "map" then
    match content with
    | some (.built (.record fields)) => some (.record fields)
    | none => some (.record [])
    | _ => none
  else none

structure Header where
  tag : Option Text
  anchor : Option Text
  atNewLine : Bool
  collections : Bool
  /-- How the node's line is indented against its parent's. -/
  relation : Ordering

def indentRelation (p : Place) (parent : Int) : Ordering := compare (p.indent : Int) parent

def properties? (isBlock : Bool) (parent : Int) : Nat → Header → Place → Option (Header × Place)
  | 0, h, p => some (h, p)
  | fuel + 1, h, p =>
    let property? : Option (Option (Header × Place)) :=
      if p.nextIs '!' then
        if h.tag.isSome then none
        else (tag? p).map fun (t, q) => some ({ h with tag := some t }, q)
      else if p.nextIs '&' then
        if h.anchor.isSome then none
        else (anchorName? p).map fun (a, q) => some ({ h with anchor := some a }, q)
      else some none
    match property? with
    | none => none
    | some none => some (h, p)
    | some (some (h, q)) =>
      let (breaks, r) := separation true q
      if breaks == 0 then properties? isBlock parent fuel { h with collections := false } r
      else
        properties? isBlock parent fuel
          { h with atNewLine := true, collections := isBlock, relation := indentRelation r parent } r

def finish? (h : Header) (content : Option Content) (p : Place) : Option (Node × Place) :=
  let value? := match h.tag, content with
    | some tag, _ => tagged? tag content
    | none, some (.plain t) => some (scalarValue t)
    | none, some (.quoted t) => some (.text t)
    | none, some (.built v) => some v
    | none, none => some .null
  let isMerge := match h.tag, content with
    | none, some (.plain t) => t == "<<".toList
    | _, _ => false
  value?.map fun v =>
    let p := match h.anchor with
      | some a => { p with anchors := p.anchors.put a v }
      | none => p
    (⟨v, isMerge, h.tag.isSome || h.anchor.isSome || content.isSome⟩, p)

def leaf? (mode : Mode) (indent : Nat) (h : Header) (p : Place) :
    Option (Option Content × Place) := do
  if mode.isBlock then
    if let some (t, q) ← block? indent p then return (some (.quoted t), q)
  if let some (t, q) ← quoted? p then return (some (.quoted t), q)
  if p.nextIs '*' then
    let (name, q) ← anchorName? p
    let v ← p.anchors.get? name
    if h.tag.isSome || h.anchor.isSome then none
    return (some (.built v), skipSeparation q)
  if let some (t, q) ← plain? (mode == .flowIn) indent p then return (some (.plain t), q)
  return (none, p)

def startsEntry (mark : Char) (p : Place) : Bool :=
  p.nextIs mark && p.second?.any isGapOrBreak

structure Partial where
  mapping : Mapping
  detected : Bool
  key : Option Value

def Partial.close? (s : Partial) : Option Partial :=
  match s.key with
  | some k => (s.mapping.store? ⟨k, false, true⟩ .null).map fun m => { s with mapping := m, key := none }
  | none => some s

def Partial.content? (s : Partial) : Option (Option Content) :=
  s.close?.map fun s => if s.detected then some (.built s.mapping.value) else none

inductive Lead where
  | key
  | value (key : Node) (compact : Bool)
  | alone (content : Option Content)

mutual

def node? : Nat → Int → Mode → Bool → Bool → Place → Option (Node × Place)
  | 0, _, _, _, _, _ => none
  | fuel + 1, parent, mode, seek, compact, p => do
    let (breaks, p) := if seek then separation true p else (0, p)
    let relation := if breaks == 0 then .gt else indentRelation p parent
    let h : Header := ⟨none, none, breaks != 0, mode.isBlock, relation⟩
    let (h, p) ←
      if relation == .gt then properties? mode.isBlock parent (p.rest.length + 1) h p
      else some (h, p)
    let collections := h.collections && (h.atNewLine || compact)
    let indent := if mode.isBlock then (parent + 1).toNat else parent.toNat
    let (content, q) ← match h.relation with
      | .gt => content? fuel mode collections indent h p
      | .eq => if mode == .blockOut && collections then sequence? fuel p else some (none, p)
      | .lt => some (none, p)
    finish? h content q

def content? : Nat → Mode → Bool → Nat → Header → Place → Option (Option Content × Place)
  | 0, _, _, _, _, _ => none
  | fuel + 1, mode, collections, indent, h, p => do
    if collections then
      let (content, q) ← sequence? fuel p
      if content.isSome then return (content, q)
      if !p.tabbed then
        let (content, q) ← entries? fuel p.column indent ⟨.empty, false, none⟩ p
        if content.isSome then return (content, q)
    match p.peek? with
    | some '[' => items? fuel indent [] true (p.skip 1)
    | some '\x7b' => fields? fuel indent .empty true (p.skip 1)
    | _ => leaf? mode indent h p

def sequence? : Nat → Place → Option (Option Content × Place)
  | 0, _ => none
  | fuel + 1, p =>
    if p.tabbed || !startsEntry '-' p then some (none, p)
    else
      (sequenceItems? fuel p.column [] p).map fun (items, q) =>
        (some (.built (.list items.reverse)), q)

def sequenceItems? : Nat → Nat → List Value → Place → Option (List Value × Place)
  | 0, _, _, _ => none
  | fuel + 1, indent, read, p =>
    if p.rest = [] then some (read, p)
    else if p.tabbed then none
    else if !startsEntry '-' p then some (read, p)
    else
      let (breaks, q) := separation true (p.skip 1)
      if breaks != 0 && q.indent ≤ indent then sequenceItems? fuel indent (.null :: read) q
      else
        match node? fuel indent .blockIn false true q with
        | none => none
        | some (item, r) =>
          let s := skipSeparation r
          if (s.line == q.line || indent < s.indent) && s.rest != [] then none
          else if s.indent < indent then some (item.value :: read, s)
          else sequenceItems? fuel indent (item.value :: read) s

def lead? : Nat → Nat → Partial → Place → Option (Lead × Partial × Place)
  | 0, _, _, _ => none
  | fuel + 1, flowIndent, s, p =>
    if startsEntry '?' p then do
      let s ← s.close?
      return (.key, { s with detected := true }, p.skip 1)
    else if startsEntry ':' p then
      s.key.map fun k => (.value ⟨k, false, true⟩ true, { s with key := none }, p.skip 1)
    else do
      let (key, q) ← node? fuel flowIndent .flowOut false true p
      if !key.found then return (.alone none, s, q)
      let gap := if q.line == p.line then (q.rest.takeWhile isGap).length else 0
      let q := q.skip gap
      if q.line == p.line && q.nextIs ':' then
        let q := q.skip 1
        if !q.peek?.any isGapOrBreak then none
        let s ← s.close?
        return (.value key false, { s with detected := true }, q)
      else if s.detected then none
      else return (.alone (some (.built key.value)), s, q)

/-- The entries of a block mapping. Text that turns out to be no mapping is kept as what it is. -/
def entries? : Nat → Nat → Nat → Partial → Place → Option (Option Content × Place)
  | 0, _, _, _, _ => none
  | fuel + 1, indent, flowIndent, s, p => do
    if p.rest = [] then return (← s.content?, p)
    if s.key.isNone && p.tabbed then none
    let (lead, s, q) ← lead? fuel flowIndent s p
    let (s, r) ← match lead with
      | .alone (some content) => return (some content, q)
      | .alone none => return (← s.content?, q)
      | .key =>
        (node? fuel indent .blockOut true true q).map fun (v, r) => ({ s with key := some v.value }, r)
      | .value key compact => do
        let (v, r) ← node? fuel indent .blockOut true compact q
        let m ← s.mapping.store? key v.value
        some ({ s with mapping := m }, r)
    let r := skipSeparation r
    if (r.line == p.line || indent < r.indent) && r.rest != [] then none
    else if r.indent < indent then return (← s.content?, r)
    else entries? fuel indent flowIndent s r

def pair? : Nat → Nat → Place → Option (Node × Option Value × Place)
  | 0, _, _ => none
  | fuel + 1, indent, p => do
    let isMarked := startsEntry '?' p
    let p := if isMarked then skipSeparation (p.skip 1) else p
    let (key, q) ← node? fuel indent .flowIn false true p
    let q := skipSeparation q
    if (isMarked || q.line == p.line) && q.nextIs ':' then
      let (v, r) ← node? fuel indent .flowIn false true (skipSeparation (q.skip 1))
      return (key, some v.value, skipSeparation r)
    else return (key, if isMarked then some .null else none, q)

def items? : Nat → Nat → List Value → Bool → Place → Option (Option Content × Place)
  | 0, _, _, _, _ => none
  | fuel + 1, indent, read, open_, p => do
    let p := skipSeparation p
    if p.rest = [] then none
    if p.nextIs ']' then return (some (.built (.list read.reverse)), p.skip 1)
    if !open_ || p.nextIs ',' then none
    let (key, value, q) ← pair? fuel indent p
    let item ← match value with
      | some v => (Mapping.empty.store? key v).map Mapping.value
      | none => some key.value
    if q.nextIs ',' then items? fuel indent (item :: read) true (q.skip 1)
    else items? fuel indent (item :: read) false q

def fields? : Nat → Nat → Mapping → Bool → Place → Option (Option Content × Place)
  | 0, _, _, _, _ => none
  | fuel + 1, indent, m, open_, p => do
    let p := skipSeparation p
    if p.rest = [] then none
    if p.nextIs '\x7d' then return (some (.built m.value), p.skip 1)
    if !open_ || p.nextIs ',' then none
    let (key, value, q) ← pair? fuel indent p
    let m ← m.store? key (value.getD .null)
    if q.nextIs ',' then fields? fuel indent m true (q.skip 1)
    else fields? fuel indent m false q

end

end DocHarvest.Yaml
