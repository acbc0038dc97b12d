import DocHarvest.Block
import DocHarvest.Proofs.Comment.Line
import DocHarvest.Proofs.TypeTerm.Longest
import Mathlib.Tactic.MkIffOfInductiveProp

set_option autoImplicit false

namespace DocHarvest

open TypeTerm

def Tail.render (type description : Text) : Text :=
  if description = [] then type else type ++ " #".toList ++ (' ' :: description)

namespace Block

def renderProse (t : Text) : Text := "--- ".toList ++ t

def renderGeneric (g : Generic) : Text := "---@generic ".toList ++ g.name

def renderParam (p : Param) : Text :=
  "---@param ".toList ++ p.name ++ (if p.optional then ['?'] else []) ++
    ' ' :: Tail.render p.type p.description

def renderReturns (r : Returns) : Text := "---@return ".toList ++ Tail.render r.type r.description

def renderOpener (e : Example) : Text := "---```".toList ++ e.lang

def renderCode (line : Text) : Text := "--- ".toList ++ line

def renderCloser : Text := "---```".toList

def renderExample (e : Example) : List Text :=
  renderOpener e :: ((e.code.splitOn '\n').map renderCode ++ [renderCloser])

def render (b : Block) : List Text :=
  b.description.map renderProse ++ b.generics.map renderGeneric ++ b.params.map renderParam ++
    renderReturns b.returns :: b.examples.flatMap renderExample

end Block

@[mk_iff]
structure Trimmed (t : Text) : Prop where
  trim : Text.trim t = t
  oneLine : Text.oneLine t = true

-- Prose that no other rule reads: no annotation, no fence, no header.
@[mk_iff]
structure IsProse (t : Text) : Prop extends Trimmed t where
  ne_nil : t ≠ []
  no_annotation : t.head? ≠ some '@'
  no_fence : ¬ "```".toList <+: t
  no_header : Comment.isHeaderText t = false

@[mk_iff]
structure IsTypeText (t : Text) : Prop extends Trimmed t where
  derived : Grammar.Expression (kinds (tokens t))

@[mk_iff]
structure IsRun (p : Char → Bool) (t : Text) : Prop where
  ne_nil : t ≠ []
  all : t.all p = true

@[mk_iff]
structure IsCodeLine (line : Text) : Prop where
  oneLine : Text.oneLine line = true
  trimEnd : Text.trimEnd line = line
  no_fence : Text.trim line ≠ "```".toList

@[mk_iff]
structure Block.Renderable (s : Settings) (b : Block) : Prop where
  description : ∀ t ∈ b.description, IsProse t
  generics : ∀ g ∈ b.generics, IsRun Text.isWord g.name ∧ g.type = s.defaultParamType
  params : ∀ p ∈ b.params, IsRun Comment.isParamNameChar p.name ∧ IsTypeText p.type ∧
    Trimmed p.description ∧
    (p.optional = false → (Tail.parse p.type).toOption.map Tail.optional = some false)
  returns : IsTypeText b.returns.type ∧ Trimmed b.returns.description
  examples : ∀ e ∈ b.examples, IsRun Text.isWord e.lang ∧
    ∀ line ∈ e.code.splitOn '\n', IsCodeLine line

section Decidability

instance (t : Text) : Decidable (Trimmed t) := decidable_of_iff' _ (trimmed_iff t)

instance (t : Text) : Decidable (IsProse t) := decidable_of_iff' _ (isProse_iff t)

instance (t : Text) : Decidable (IsTypeText t) := decidable_of_iff' _ (isTypeText_iff t)

instance (p : Char → Bool) (t : Text) : Decidable (IsRun p t) := decidable_of_iff' _ (isRun_iff p t)

instance (line : Text) : Decidable (IsCodeLine line) := decidable_of_iff' _ (isCodeLine_iff line)

instance (s : Settings) (b : Block) : Decidable (b.Renderable s) :=
  decidable_of_iff' _ (Block.renderable_iff s b)

end Decidability

theorem IsRun.shown {p : Char → Bool} {t : Text} (run : IsRun p t)
    (shown : ∀ c, p c = true → Text.isBlank c = false) :
    ∀ c ∈ t.head?, Text.isBlank c = false := by
  intro c first
  exact shown c (List.all_eq_true.mp run.all c (List.mem_of_mem_head? first))

theorem IsRun.run? {p : Char → Bool} {t rest : Text} (run : IsRun p t)
    (stops : ∀ c ∈ rest.head?, p c = false) : Text.run? p (t ++ rest) = some (t, rest) := by
  have all : ∀ c ∈ t, p c = true := List.all_eq_true.mp run.all
  have taken : (t ++ rest).takeWhile p = t ∧ (t ++ rest).dropWhile p = rest := by
    rw [List.takeWhile_append_of_pos all, List.dropWhile_append_of_pos all]
    cases rest with
    | nil => simp
    | cons c rest => simp [stops c (by simp)]
  simp [Text.run?, taken, run.ne_nil]

theorem IsTypeText.ne_nil {t : Text} (isType : IsTypeText t) : t ≠ [] := by
  rintro rfl
  have starts := startsTerm_expression isType.derived []
  simp [tokens, tokensFrom, startsTerm] at starts

-- A type that is written alone is read whole, and a description after it changes nothing.
theorem Tail.ofText_render {type description : Text} (isType : IsTypeText type)
    (trimmed : Text.trim description = description) : ∃ optional,
      Tail.parse type = .ok ⟨type, [], optional⟩ ∧
        Tail.ofText (Tail.render type description) = ⟨type, description, optional⟩ := by
  obtain ⟨optional, read⟩ := readTerm_of_expression isType.derived
  have spelled : phrase (tokens type) = type := by rw [phrase_tokens, isType.trim]
  have alone : Tail.parse type = .ok ⟨type, [], optional⟩ := by
    have whole := read [] (by simp)
    rw [List.append_nil] at whole
    simp [Tail.parse, whole, spelled, Tail.descriptionOf]
  refine ⟨optional, alone, ?_⟩
  by_cases empty : description = []
  · subst empty
    simp [Tail.render, Tail.ofText, alone]
  · -- The `#` ends the last token of the type and extends no term.
    obtain ⟨gap, cut⟩ := tokens_hash type (' ' :: description)
    have stopped := read (⟨gap, .hash, ['#']⟩ :: tokens (' ' :: description))
      (by simp [Grammar.Extends])
    rw [← cut] at stopped
    have told : phrase (tokens (' ' :: description)) = description := by
      rw [phrase_tokens, Text.trim_cons_blank (by decide), trimmed]
    have parsed : Tail.parse (Tail.render type description) =
        .ok ⟨type, description, optional⟩ := by
      rw [Tail.render, if_neg empty, parse_eq_ok_iff]
      exact ⟨_, stopped, by simp [spelled, Tail.descriptionOf, told]⟩
    rw [Tail.ofText, parsed]

theorem Tail.render_ne_nil {type description : Text} (isType : IsTypeText type) :
    Tail.render type description ≠ [] := by
  unfold Tail.render
  split <;> simp [isType.ne_nil]

theorem Tail.render_trimmed {type description : Text} (isType : IsTypeText type)
    (trimmed : Trimmed description) : Trimmed (Tail.render type description) := by
  by_cases empty : description = []
  · simpa [Tail.render, empty] using isType.toTrimmed
  · have first := Text.head_shown_of_trim isType.trim
    have last := Text.last_trimEnd_shown description
    rw [Text.trimEnd_of_trim trimmed.trim] at last
    obtain ⟨c, t, rfl⟩ := List.exists_cons_of_ne_nil isType.ne_nil
    simp only [Tail.render, empty, if_false]
    constructor
    · apply Text.trim_of_ends
      · simpa using first
      · obtain ⟨d, more, rfl⟩ := List.exists_cons_of_ne_nil empty
        simpa [List.getLast?_cons] using last
    · have before := isType.oneLine
      have after := trimmed.oneLine
      simp only [Text.oneLine, List.all_append, List.all_cons, Bool.and_eq_true] at before after ⊢
      exact ⟨⟨before, by decide⟩, by decide, after⟩

namespace Comment

theorem body?_rich (t : Text) : body? ("---".toList ++ t) = some t := by
  simp [body?, split?, Text.dropBlanks, show Text.isBlank '-' = false by decide]

theorem filling?_of_trimmed {t : Text} (trimmed : Trimmed t) (shown : t ≠ []) :
    filling? t = some t := by
  simp [filling?, Text.trimEnd_of_trim trimmed.trim, trimmed.oneLine, shown]

theorem afterMarker?_rich (lead : String) {c : Char} {more : Text} (split : lead.toList = c :: more)
    (shown : Text.isBlank c = false) (t : Text) :
    afterMarker? lead ("---".toList ++ (lead.toList ++ t)) = some t := by
  have first : ∀ d ∈ (lead.toList ++ t).head?, Text.isBlank d = false := by
    simpa [split] using shown
  rw [afterMarker?, body?_rich, Option.bind_some, Text.dropBlanks_of_head first, after?_eq_some]

theorem afterBlanks?_space {t : Text} (shown : ∀ c ∈ t.head?, Text.isBlank c = false) :
    Text.afterBlanks? (' ' :: t) = some t := by
  have space : Text.isBlank ' ' = true := by decide
  simp [Text.afterBlanks?, space, Text.dropBlanks_of_head shown]

theorem isParamNameChar_shown {c : Char} (named : isParamNameChar c = true) :
    Text.isBlank c = false ∧ c ≠ '?' := by
  simp only [isParamNameChar, Bool.or_eq_true, beq_iff_eq] at named
  rcases named with word | rfl
  · refine ⟨Text.isBlank_of_isWord word, ?_⟩
    rintro rfl
    exact absurd word (by decide)
  · decide

theorem generic?_render (s : Settings) {g : Generic} (isName : IsRun Text.isWord g.name)
    (typed : g.type = s.defaultParamType) :
    outsideFence? s (Block.renderGeneric g) = some (some (.generic g)) := by
  obtain ⟨name, type⟩ := g
  subst typed
  have read := afterMarker?_rich "@generic" rfl (by decide) (' ' :: name)
  have begins := afterBlanks?_space (isName.shown fun c => Text.isBlank_of_isWord)
  have named : Text.run? Text.isWord name = some (name, []) := by
    have whole := @IsRun.run? Text.isWord name [] isName (by simp)
    rwa [List.append_nil] at whole
  have said : generic? s (Block.renderGeneric ⟨name, s.defaultParamType⟩) =
      some ⟨name, s.defaultParamType⟩ := by
    change generic? s ("---".toList ++ ("@generic".toList ++ (' ' :: name))) = _
    simp only [generic?, read, Option.bind_eq_bind, Option.bind_some, begins, named]
    rfl
  simp [outsideFence?, said]

theorem renderParam_eq (p : Param) : Block.renderParam p = "---".toList ++ ("@param".toList ++
    ' ' :: (p.name ++
      ((if p.optional then ['?'] else []) ++ ' ' :: Tail.render p.type p.description))) := by
  unfold Block.renderParam
  rw [show "---@param ".toList = "---".toList ++ ("@param".toList ++ [' ']) from rfl]
  simp only [List.append_assoc, List.cons_append, List.nil_append]

theorem param?_render (s : Settings) {p : Param} (isName : IsRun isParamNameChar p.name)
    (isType : IsTypeText p.type) (told : Trimmed p.description)
    (flag : p.optional = false → (Tail.parse p.type).toOption.map Tail.optional = some false) :
    outsideFence? s (Block.renderParam p) = some (some (.param p)) := by
  have read := afterMarker?_rich "@param" rfl (by decide) (' ' :: (p.name ++
    ((if p.optional then ['?'] else []) ++ ' ' :: Tail.render p.type p.description)))
  rw [← renderParam_eq] at read
  have other := afterMarker?_of_clash read "@generic" (by simp)
  have said : param? s (Block.renderParam p) = some p := by
    obtain ⟨name, type, description, optional⟩ := p
    obtain ⟨own, alone, tail⟩ := Tail.ofText_render isType told.trim
    have trimmed := Tail.render_trimmed isType told
    have begins : ∀ x, Text.afterBlanks? (' ' :: (name ++ x)) = some (name ++ x) := by
      intro x
      obtain ⟨c, more, rfl⟩ := List.exists_cons_of_ne_nil isName.ne_nil
      exact afterBlanks?_space (isName.shown fun c named => (isParamNameChar_shown named).1)
    have goes := afterBlanks?_space (Text.head_shown_of_trim trimmed.trim)
    have filling := filling?_of_trimmed trimmed (Tail.render_ne_nil isType)
    have typed : orElse type s.defaultParamType = type := if_neg isType.ne_nil
    cases optional with
    | true =>
      have named : Text.run? isParamNameChar
          (name ++ ('?' :: ' ' :: Tail.render type description)) =
            some (name, '?' :: ' ' :: Tail.render type description) :=
        isName.run? (by simp [show isParamNameChar '?' = false by decide])
      simp [param?, read, begins, named, goes, filling, tail, typed]
    | false =>
      have named : Text.run? isParamNameChar (name ++ (' ' :: Tail.render type description)) =
          some (name, ' ' :: Tail.render type description) :=
        isName.run? (by simp [show isParamNameChar ' ' = false by decide])
      -- With no mark on the name, only the type could make the parameter optional.
      have plain : own = false := by simpa [alone, Except.toOption] using flag rfl
      simp [param?, read, begins, named, goes, filling, tail, typed, plain]
  simp only [outsideFence?, generic?, other, said]
  rfl

theorem returns?_render (s : Settings) {r : Returns} (isType : IsTypeText r.type)
    (told : Trimmed r.description) :
    outsideFence? s (Block.renderReturns r) = some (some (.returns r)) := by
  have line : Block.renderReturns r = "---".toList ++ ("@return".toList ++
      ' ' :: Tail.render r.type r.description) := rfl
  have read := afterMarker?_rich "@return" rfl (by decide)
    (' ' :: Tail.render r.type r.description)
  rw [← line] at read
  have generic := afterMarker?_of_clash read "@generic" (by simp)
  have param := afterMarker?_of_clash read "@param" (by simp)
  have said : returns? s (Block.renderReturns r) = some r := by
    obtain ⟨own, _, tail⟩ := Tail.ofText_render isType told.trim
    have trimmed := Tail.render_trimmed isType told
    have begins := afterBlanks?_space (Text.head_shown_of_trim trimmed.trim)
    have filling := filling?_of_trimmed trimmed (Tail.render_ne_nil isType)
    have typed : orElse r.type s.defaultReturnType = r.type := if_neg isType.ne_nil
    simp [returns?, read, begins, filling, tail, typed]
  simp only [outsideFence?, generic?, param?, generic, param, said]
  rfl

theorem afterMarker?_spaced (lead : String) (t : Text) :
    afterMarker? lead ("--- ".toList ++ t) = Text.after? lead (Text.dropBlanks t) := by
  have body := body?_rich (' ' :: t)
  have space : Text.isBlank ' ' = true := by decide
  change afterMarker? lead ("---".toList ++ ' ' :: t) = _
  rw [afterMarker?, body, Option.bind_some, Text.dropBlanks, List.dropWhile_cons_of_pos space]
  rfl

theorem after?_of_not_prefix {lead : String} {t : Text} (other : ¬ lead.toList <+: t) :
    Text.after? lead t = none := by
  cases read : Text.after? lead t with
  | none => rfl
  | some r => exact absurd ⟨r, (after?_eq_some.mp read).symm⟩ other

theorem prose?_render (s : Settings) {t : Text} (isProse : IsProse t) :
    outsideFence? s (Block.renderProse t) = some (some (.prose t)) := by
  have front : Text.dropBlanks t = t := Text.dropBlanks_of_trim isProse.trim
  have body : body? (Block.renderProse t) = some (' ' :: t) := body?_rich (' ' :: t)
  have annotation : ∀ lead : String, lead.toList.head? = some '@' →
      afterMarker? lead (Block.renderProse t) = none := by
    intro lead first
    rw [Block.renderProse, afterMarker?_spaced, front]
    apply after?_of_not_prefix
    rintro ⟨r, rfl⟩
    exact isProse.no_annotation (by simp [List.head?_append, first])
  have generic := annotation "@generic" (by decide)
  have param := annotation "@param" (by decide)
  have returns := annotation "@return" (by decide)
  have fence : afterMarker? "```" (Block.renderProse t) = none := by
    rw [Block.renderProse, afterMarker?_spaced, front]
    exact after?_of_not_prefix isProse.no_fence
  have shown : Text.allBlank (' ' :: t) = false := by
    obtain ⟨c, more, rfl⟩ := List.exists_cons_of_ne_nil isProse.ne_nil
    simp [Text.allBlank, Text.head_shown_of_trim isProse.trim c (by simp)]
  have header : isHeader (Block.renderProse t) = false := by
    rw [isHeader_eq, body]
    exact isProse.no_header
  have said : prose? (Block.renderProse t) = some t := by
    simp [prose?, body, Text.trim_cons_blank (show Text.isBlank ' ' = true by decide), isProse.trim,
      isProse.oneLine]
  simp [outsideFence?, generic?, param?, returns?, fenceOpen?, isIgnored, isEmpty, generic, param,
    returns, fence, body, shown, header, said]

theorem fenceOpen?_render (s : Settings) {e : Example} (isName : IsRun Text.isWord e.lang) :
    fenceOpen? s (Block.renderOpener e) = some e.lang := by
  have line : Block.renderOpener e = "---".toList ++ ("```".toList ++ e.lang) := rfl
  have front := Text.dropBlanks_of_head (isName.shown fun c => Text.isBlank_of_isWord)
  have whole : e.lang.takeWhile Text.isWord = e.lang :=
    List.takeWhile_eq_self_iff.mpr (List.all_eq_true.mp isName.all)
  rw [fenceOpen?, line, afterMarker?_rich "```" rfl (by decide), Option.map_some, front,
    whole, orElse, if_neg isName.ne_nil]

theorem closesFence_renderCloser : closesFence Block.renderCloser = true := by decide

theorem code?_render {line : Text} (isCode : IsCodeLine line) :
    code? (Block.renderCode line) = some line := by
  have body : body? (Block.renderCode line) = some (' ' :: line) := body?_rich (' ' :: line)
  have single : Text.oneLine (' ' :: line) = true := by
    simpa [Text.oneLine, show Text.isTerminator ' ' = false by decide] using isCode.oneLine
  simp [code?, body, single, codeText, isCode.trimEnd]

theorem closesFence_renderCode {line : Text} (isCode : IsCodeLine line) :
    closesFence (Block.renderCode line) = false := by
  rw [closesFence, Block.renderCode, afterMarker?_spaced]
  cases read : Text.after? "```" (Text.dropBlanks line) with
  | none => rfl
  | some r =>
    -- Only blanks after the fence would make it all that the line holds.
    by_contra bare
    have blanks : ∀ c ∈ r, Text.isBlank c = true := by simpa [Text.allBlank] using bare
    apply isCode.no_fence
    rw [Text.trim, after?_eq_some.mp read, Text.trimEnd_append_of_blank blanks]
    decide

end Comment

end DocHarvest
