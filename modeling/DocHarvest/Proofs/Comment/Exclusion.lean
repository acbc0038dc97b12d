import DocHarvest.Parser
import DocHarvest.Proofs.Comment.Line

set_option autoImplicit false

namespace DocHarvest

namespace Parser

theorem choice_matching {α : Type} (rules : List (Text → Option α)) (c : Cursor) :
    choice (rules.map matching) c = matching (fun line => rules.findSome? (· line)) c := by
  induction rules with
  | nil => cases h : c.line? <;> simp [choice, fail, matching, h]
  | cons rule rules ih =>
    simp only [List.map_cons, choice, ih]
    cases h : c.line? with
    | none => simp [matching, h]
    | some line => cases read : rule line <;> simp [matching, h, read]

end Parser

theorem findSome?_perm {α β : Type} {f : α → Option β}
    (one : ∀ a b, (f a).isSome = true → (f b).isSome = true → a = b) {as bs : List α}
    (perm : as.Perm bs) : as.findSome? f = bs.findSome? f := by
  induction perm with
  | nil => rfl
  | cons a _ ih => simp [List.findSome?_cons, ih]
  | swap a b rest =>
    cases left : f a with
    | none => simp [List.findSome?_cons, left]
    | some x =>
      cases right : f b with
      | none => simp [left, right]
      | some y =>
        have same := one a b (by simp [left]) (by simp [right])
        simp [List.findSome?_cons, same]
  | trans _ _ first second => exact first.trans second

namespace Comment

inductive Topic where
  | generic | param | returns | fence | ignored
  deriving DecidableEq, Repr

namespace Topic

def all : List Topic := [.generic, .param, .returns, .fence, .ignored]

def rule (s : Settings) : Topic → Text → Option (Option Annotation)
  | .generic, line => (generic? s line).map fun g => some (.generic g)
  | .param, line => (param? s line).map fun p => some (.param p)
  | .returns, line => (returns? s line).map fun r => some (.returns r)
  | .fence, line => (fenceOpen? s line).map fun lang => some (.fenceOpen lang)
  | .ignored, line => if isIgnored line then some none else none

def ofText : Text → Topic
  | '@' :: 'g' :: _ => .generic
  | '@' :: 'p' :: _ => .param
  | '@' :: 'r' :: _ => .returns
  | '`' :: _ => .fence
  | _ => .ignored

end Topic

def proseRule (line : Text) : Option (Option Annotation) :=
  (prose? line).map fun t => some (.prose t)

theorem outsideFence?_eq_findSome? (s : Settings) (line : Text) : outsideFence? s line =
    (Topic.all.findSome? fun topic => topic.rule s line).or (proseRule line) := by
  simp only [outsideFence?, Topic.all, Topic.rule, List.findSome?_cons, List.findSome?_nil]
  cases generic? s line with
  | some g => rfl
  | none =>
    cases param? s line with
    | some p => rfl
    | none =>
      cases returns? s line with
      | some r => rfl
      | none =>
        cases fenceOpen? s line with
        | some lang => rfl
        | none => cases isIgnored line <;> rfl

def topic? (line : Text) : Option Topic :=
  (body? line).map fun t => Topic.ofText (Text.dropBlanks t)

-- A rule that needs a text in front reads lines of the topic of that text.
theorem topic?_of_lead {s : Settings} {topic : Topic} {line : Text} (lead : String)
    (known : ∀ t, Topic.ofText (lead.toList ++ t) = topic)
    (needed : afterMarker? lead line = none → topic.rule s line = none)
    (read : (topic.rule s line).isSome = true) : topic? line = some topic := by
  cases led : afterMarker? lead line with
  | none => simp [needed led] at read
  | some t =>
    obtain ⟨body, found, led⟩ := Option.bind_eq_some_iff.mp led
    rw [topic?, found, Option.map_some, after?_eq_some.mp led, known]

theorem headerTitle?_of_head {c : Char}
    (other : Text.lowerLetter c ≠ 'b' ∧ Text.lowerLetter c ≠ 'p') (t : Text) :
    headerTitle? (c :: t) = none := by
  simp [headerTitle?, Text.afterIgnoringCase?, other]

theorem topic_of_headerTitle? {t : Text} (header : (headerTitle? t).isSome = true) :
    Topic.ofText t = .ignored := by
  unfold Topic.ofText
  split
  case h_5 => rfl
  all_goals
    rw [headerTitle?_of_head (by decide)] at header
    cases header

theorem topic?_of_isIgnored {line : Text} (passed : isIgnored line = true) :
    topic? line = some .ignored := by
  cases body : body? line with
  | none => simp [isIgnored, isEmpty, isHeader, body] at passed
  | some t =>
    rw [topic?, body, Option.map_some]
    rw [isIgnored, Bool.or_eq_true, isHeader_eq, isEmpty, body] at passed
    rcases passed with empty | header
    · have nothing : Text.dropBlanks t = [] := by
        simpa [Text.dropBlanks, Text.allBlank, List.dropWhile_eq_nil_iff] using empty
      rw [nothing]
      rfl
    · have titled : (headerTitle? (Text.dropBlanks t)).isSome = true := by
        rw [Option.any_some, isHeaderText] at header
        split at header
        · next titled => rw [titled]; rfl
        · cases header
      rw [topic_of_headerTitle? titled]

theorem topic?_of_rule {s : Settings} {topic : Topic} {line : Text}
    (read : (topic.rule s line).isSome = true) : topic? line = some topic := by
  cases topic with
  | generic =>
    refine topic?_of_lead "@generic" (fun _ => rfl) ?_ read
    intro led
    simp [Topic.rule, generic?, led]
  | param =>
    refine topic?_of_lead "@param" (fun _ => rfl) ?_ read
    intro led
    simp [Topic.rule, param?, led]
  | returns =>
    refine topic?_of_lead "@return" (fun _ => rfl) ?_ read
    intro led
    simp [Topic.rule, returns?, led]
  | fence =>
    refine topic?_of_lead "```" (fun _ => rfl) ?_ read
    intro led
    simp [Topic.rule, fenceOpen?, led]
  | ignored =>
    apply topic?_of_isIgnored
    by_contra shown
    simp [Topic.rule, shown] at read

theorem rules_exclusive {s : Settings} {line : Text} {topic other : Topic}
    (read : (topic.rule s line).isSome = true) (also : (other.rule s line).isSome = true) :
    topic = other :=
  Option.some.inj ((topic?_of_rule read).symm.trans (topic?_of_rule also))

theorem outsideFence?_eq_of_perm (s : Settings) (line : Text) {topics : List Topic}
    (perm : topics.Perm Topic.all) :
    (topics.map (Topic.rule s) ++ [proseRule]).findSome? (· line) = outsideFence? s line := by
  have one : ∀ topic other : Topic, (topic.rule s line).isSome = true →
      (other.rule s line).isSome = true → topic = other := fun _ _ => rules_exclusive
  rw [outsideFence?_eq_findSome?, ← findSome?_perm one perm]
  simp [List.findSome?_append, List.findSome?_map, Function.comp_def]

theorem prose?_eq_some {line t : Text} (told : prose? line = some t) :
    ∃ rest, Marked line rest ∧ t = Text.trim rest := by
  obtain ⟨rest, body, told⟩ := Option.bind_eq_some_iff.mp told
  simp only [Option.ite_none_right_eq_some, Option.some.injEq] at told
  exact ⟨rest, marked_of_body? body, told.2.symm⟩

/-- At most one of the rules before prose reads a line, so these rules may stand in any order; what
is left to prose is told as it stands behind the marker. -/
theorem outside_rules_exclusive (s : Settings) :
    (∀ (line : Text) (topic other : Topic), (topic.rule s line).isSome = true →
      (other.rule s line).isSome = true → topic = other) ∧
    (∀ topics : List Topic, topics.Perm Topic.all →
      Parser.choice ((topics.map (Topic.rule s) ++ [proseRule]).map Parser.matching) =
        Parser.matching (annotation? s false)) ∧
    ∀ line t, (∀ topic : Topic, topic.rule s line = none) → prose? line = some t →
      annotation? s false line = some (some (.prose t)) ∧
        ∃ rest, Marked line rest ∧ t = Text.trim rest := by
  refine ⟨fun line topic other => rules_exclusive, ?_, ?_⟩
  · intro topics perm
    have same : (fun line => (topics.map (Topic.rule s) ++ [proseRule]).findSome? (· line)) =
        annotation? s false := funext fun line => outsideFence?_eq_of_perm s line perm
    rw [← same]
    exact funext fun c => Parser.choice_matching _ c
  · intro line t unread told
    have left : annotation? s false line = proseRule line := by
      change outsideFence? s line = _
      simp [outsideFence?_eq_findSome?, Topic.all, unread]
    exact ⟨by rw [left, proseRule, told, Option.map_some], prose?_eq_some told⟩

-- A parameter without a type is no parameter, and is left to prose.
theorem outside_rules_exclusive_sample :
    let s := Settings.default
    let opener := "\t--- ```js x".toList
    let line := " --- @param x ".toList
    let backwards : List Topic := [.ignored, .fence, .returns, .param, .generic]
    (Topic.fence.rule s opener).isSome = true ∧
      (∀ other : Topic, (other.rule s opener).isSome = true → other = .fence) ∧
      backwards.Perm Topic.all ∧
      Parser.choice ((backwards.map (Topic.rule s) ++ [proseRule]).map Parser.matching) =
        Parser.matching (annotation? s false) ∧
      (∀ topic : Topic, topic.rule s line = none) ∧ prose? line = some "@param x".toList ∧
      annotation? s false line = some (some (.prose "@param x".toList)) := by
  intro s opener line backwards
  obtain ⟨exclusive, reordered, told⟩ := outside_rules_exclusive s
  have opens : (Topic.fence.rule s opener).isSome = true := by decide
  have perm : backwards.Perm Topic.all := by decide
  have unread : ∀ topic : Topic, topic.rule s line = none := by
    intro topic
    cases topic <;> decide
  have text : prose? line = some "@param x".toList := by decide
  exact ⟨opens, fun other read => exclusive opener other .fence read opens, perm,
    reordered backwards perm, unread, text, (told line _ unread text).1⟩

end Comment

end DocHarvest
