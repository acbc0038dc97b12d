import DocHarvest.Comment.Annotation
import DocHarvest.Parser

set_option autoImplicit false

namespace DocHarvest

structure Example where
  lang : Text
  code : Text
  deriving DecidableEq, Repr

structure Block where
  description : List Text
  params : List Param
  returns : Returns
  generics : List Generic
  examples : List Example
  deriving DecidableEq, Repr

def Block.empty (s : Settings) : Block := ⟨[], [], ⟨s.defaultReturnType, []⟩, [], []⟩

structure Fence where
  lang : Text
  code : List Text
  deriving DecidableEq, Repr

structure Draft where
  block : Block
  fence : Option Fence
  deriving DecidableEq, Repr

namespace Draft

def empty (s : Settings) : Draft := ⟨Block.empty s, none⟩

def inFence (d : Draft) : Bool := d.fence.isSome

def addGeneric (d : Draft) (g : Generic) : Draft :=
  { d with block.generics := d.block.generics ++ [g] }

def addParam (d : Draft) (p : Param) : Draft :=
  { d with block.params := d.block.params ++ [p] }

def setReturns (d : Draft) (r : Returns) : Draft := { d with block.returns := r }

def closeFence (d : Draft) : Draft :=
  match d.fence with
  | none => d
  | some f =>
    let shown : Example := ⟨f.lang, ['\n'].intercalate f.code⟩
    { block := { d.block with examples := d.block.examples ++ [shown] }, fence := none }

def addText (d : Draft) (t : Text) : Draft :=
  match d.fence with
  | some f => { d with fence := some { f with code := f.code ++ [t] } }
  | none => { d with block.description := d.block.description ++ [t] }

def add (d : Draft) : Option Annotation → Draft
  | none => d
  | some (.generic g) => d.addGeneric g
  | some (.param p) => d.addParam p
  | some (.returns r) => d.setReturns r
  | some (.fenceOpen lang) => { d with fence := some ⟨lang, []⟩ }
  | some .fenceClose => d.closeFence
  | some (.prose t) => d.addText t

/-- Adds the comment lines that follow. `taken` counts the lines that belong to the block so far
and `blanks` the blank lines after them. -/
def extend (s : Settings) (d : Draft) (taken blanks : Nat) : List Text → Draft × Nat
  | [] => (d, taken)
  | line :: rest =>
    if Comment.isBlankLine line then d.extend s taken (blanks + 1) rest
    else
      match Comment.annotation? s d.inFence line with
      | some a => (d.add a).extend s (taken + blanks + 1) 0 rest
      | none => (d, taken)

theorem le_taken_extend (s : Settings) (lines : List Text) (d : Draft) (taken blanks : Nat) :
    taken ≤ (d.extend s taken blanks lines).2 := by
  induction lines generalizing d taken blanks with
  | nil => simp [extend]
  | cons line rest ih =>
    rw [extend]
    split
    · exact ih d taken (blanks + 1)
    · split
      · exact Nat.le_trans (by omega) (ih _ (taken + blanks + 1) 0)
      · exact Nat.le_refl taken

end Draft

namespace Block

def parser (s : Settings) : Parser Block := fun c =>
  match c.after with
  | [] => none
  | line :: rest =>
    match Comment.annotation? s c.context.inFence line with
    | none => none
    | some a =>
      let (draft, taken) := ((Draft.empty s).add a).extend s 1 0 rest
      some (draft.block, (c.advance taken).withContext (Context.outside s.defaultCodeLang))

theorem parser_progresses (s : Settings) : Parser.Progresses (parser s) := by
  intro c b c' h
  cases hl : c.after with
  | nil => simp [parser, hl] at h
  | cons line rest =>
    simp only [parser, hl] at h
    split at h
    · simp at h
    · next a _ =>
      have := Draft.le_taken_extend s rest ((Draft.empty s).add a) 1 0
      simp only [Option.some.injEq, Prod.mk.injEq] at h
      obtain ⟨_, rfl⟩ := h
      simp [Cursor.withContext, hl]
      omega

end Block

end DocHarvest
