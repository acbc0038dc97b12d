import DocHarvest.Proofs.Signature.Shape

set_option autoImplicit false

namespace DocHarvest

namespace Text

theorem afterBlanks?_eq_some {t r : Text} : afterBlanks? t = some r ↔
    ∃ gap, gap ≠ [] ∧ (∀ c ∈ gap, isBlank c = true) ∧ (∀ c ∈ r.head?, isBlank c = false) ∧
      t = gap ++ r := by
  constructor
  · intro read
    cases t with
    | nil => cases read
    | cons c t =>
      simp only [afterBlanks?, Option.ite_none_right_eq_some, Option.some.injEq] at read
      obtain ⟨blank, rfl⟩ := read
      refine ⟨c :: t.takeWhile isBlank, by simp, ?_, head_dropBlanks_shown t, ?_⟩
      · simpa [blank] using List.all_eq_true.mp (List.all_takeWhile (p := isBlank) (l := t))
      · simp [dropBlanks]
  · rintro ⟨gap, some_gap, blank, shown, rfl⟩
    obtain ⟨c, gap, rfl⟩ := List.exists_cons_of_ne_nil some_gap
    have rest : dropBlanks (gap ++ r) = r := by
      rw [dropBlanks_append_of_blank fun d member => blank d (by simp [member]),
        dropBlanks_of_head shown]
    simp [afterBlanks?, blank c (by simp), rest]

end Text

namespace Signature

open Text

theorem isBlank_of_isNameChar {c : Char} (inside : isNameChar c = true) : isBlank c = false := by
  simp only [isNameChar, Bool.or_eq_true, beq_iff_eq] at inside
  rcases inside with word | rfl
  · exact isBlank_of_isWord word
  · decide

theorem isNameChar_of_isBlank {c : Char} (blank : isBlank c = true) : isNameChar c = false := by
  rw [Bool.eq_false_iff]
  intro inside
  simp [isBlank_of_isNameChar inside] at blank

theorem IsQualified.isNameChar {name : Text} (qualified : IsQualified name) :
    ∀ c ∈ name, isNameChar c = true := by
  obtain ⟨parts, _, identifiers, rfl⟩ := qualified
  intro c member
  rcases mem_intercalate member with dot | ⟨part, listed, inside⟩
  · simp [Signature.isNameChar, List.mem_singleton.mp dot]
  · simp [Signature.isNameChar, isWord_of_isIdentifier (identifiers part listed) c inside]

theorem IsQualified.exists_cons {name : Text} (qualified : IsQualified name) :
    ∃ c rest, name = c :: rest ∧ isNameStart c = true := by
  obtain ⟨parts, some_part, identifiers, rfl⟩ := qualified
  obtain ⟨part, parts, rfl⟩ := List.exists_cons_of_ne_nil some_part
  have identifier := identifiers part (by simp)
  cases part with
  | nil => cases identifier
  | cons c part =>
    have starts : isNameStart c = true := (Bool.and_eq_true_iff.mp identifier).1
    cases parts with
    | nil => exact ⟨c, part, by simp, starts⟩
    | cons next parts => exact ⟨c, _, by rw [List.intercalate_cons_cons]; rfl, starts⟩

theorem IsQualified.isQualifiedName {name : Text} (qualified : IsQualified name) :
    isQualifiedName name = true :=
  List.all_eq_true.mpr qualified.isIdentifier_of_mem

theorem name?_eq_some {t name rest : Text} : name? t = some (name, rest) ↔
    IsQualified name ∧ (∀ c ∈ rest.head?, isNameChar c = false) ∧ t = name ++ rest := by
  constructor
  · intro read
    refine ⟨isQualified_of_name? read, ?_⟩
    simp only [name?, Option.ite_none_right_eq_some, Option.some.injEq, Prod.mk.injEq] at read
    obtain ⟨_, rfl, rfl⟩ := read
    refine ⟨?_, List.takeWhile_append_dropWhile.symm⟩
    intro c first
    have stops := List.head?_dropWhile_not isNameChar t
    rwa [Option.mem_def.mp first] at stops
  · rintro ⟨qualified, stops, rfl⟩
    have none_taken : rest.takeWhile isNameChar = [] ∧ rest.dropWhile isNameChar = rest := by
      cases rest with
      | nil => exact ⟨rfl, rfl⟩
      | cons c rest => simp [stops c (by simp)]
    simp [name?, List.takeWhile_append_of_pos qualified.isNameChar,
      List.dropWhile_append_of_pos qualified.isNameChar, none_taken, qualified.isQualifiedName]

theorem parenthesised?_eq_some {t params : Text} : parenthesised? t = some params ↔
    ')' ∉ params ∧ ∃ gap rest, (∀ c ∈ gap, isBlank c = true) ∧
      t = gap ++ '(' :: (params ++ ')' :: rest) := by
  constructor
  · intro read
    refine ⟨no_paren_of_parenthesised? read, ?_⟩
    unfold parenthesised? at read
    split at read
    · next r opened =>
      simp only [Option.ite_none_right_eq_some, Option.some.injEq] at read
      obtain ⟨closed, rfl⟩ := read
      obtain ⟨params, rest, rfl, unclosed⟩ :=
        List.eq_append_cons_of_mem (List.contains_iff_mem.mp closed)
      refine ⟨t.takeWhile isBlank, rest, List.all_eq_true.mp List.all_takeWhile, ?_⟩
      rw [Text.takeWhile_before unclosed, ← opened]
      exact List.takeWhile_append_dropWhile.symm
    · cases read
  · rintro ⟨unclosed, gap, rest, blank, rfl⟩
    have opened : dropBlanks (gap ++ '(' :: (params ++ ')' :: rest)) =
        '(' :: (params ++ ')' :: rest) := by
      rw [dropBlanks_append_of_blank blank]
      rfl
    simp [parenthesised?, opened, Text.takeWhile_before unclosed]

/-- A declaration at the front of a text: keyword, name, and parameters up to the first `)`. -/
def Declares (t name params : Text) : Prop :=
  IsQualified name ∧ ')' ∉ params ∧ ∃ gap gap' rest, gap ≠ [] ∧ (∀ c ∈ gap, isBlank c = true) ∧
    (∀ c ∈ gap', isBlank c = true) ∧
      t = "function".toList ++ gap ++ name ++ gap' ++ '(' :: (params ++ ')' :: rest)

theorem head_no_name_char {gap : Text} {c : Char} (blank : ∀ d ∈ gap, isBlank d = true)
    (foreign : isNameChar c = false) (rest : Text) :
    ∀ d ∈ (gap ++ c :: rest).head?, isNameChar d = false := by
  intro d first
  cases gap with
  | nil =>
    obtain rfl : c = d := by simpa using first
    exact foreign
  | cons e gap =>
    obtain rfl : e = d := by simpa using first
    exact isNameChar_of_isBlank (blank e (by simp))

theorem declarationHere?_iff {t name params : Text} :
    declarationHere? t = some (name, params) ↔ Declares t name params := by
  simp only [declarationHere?, Option.bind_eq_bind, Option.bind_eq_some_iff, Option.pure_def,
    Option.some.injEq, Prod.mk.injEq, Prod.exists, Comment.after?_eq_some, afterBlanks?_eq_some,
    name?_eq_some, parenthesised?_eq_some]
  constructor
  · rintro ⟨_, rfl, _, ⟨gap, some_gap, blank, _, rfl⟩, _, _, ⟨named, _, rfl⟩, _,
      ⟨unclosed, gap', rest, blank', rfl⟩, rfl, rfl⟩
    exact ⟨named, unclosed, gap, gap', rest, some_gap, blank, blank', by simp⟩
  · rintro ⟨named, unclosed, gap, gap', rest, some_gap, blank, blank', rfl⟩
    obtain ⟨c, more, rfl, starts⟩ := named.exists_cons
    have shown : isBlank c = false := isBlank_of_isWord (by simp [isWord, starts])
    exact ⟨_, by simp, _, ⟨gap, some_gap, blank, by simpa using shown, rfl⟩, c :: more, _,
      ⟨named, head_no_name_char blank' (by decide) _, rfl⟩, params,
      ⟨unclosed, gap', rest, blank', rfl⟩, rfl, rfl⟩

def Passes (x rest : Text) : Prop :=
  ∀ u v, x = u ++ v → v ≠ [] → declarationHere? (v ++ rest) = none

theorem Passes.append {x y rest : Text} (front : Passes x (y ++ rest)) (back : Passes y rest) :
    Passes (x ++ y) rest := by
  intro u v split some_left
  rcases List.append_eq_append_iff.mp split with ⟨w, rfl, rfl⟩ | ⟨w, rfl, rfl⟩
  · exact back w v rfl some_left
  · cases w with
    | nil => exact back [] y rfl (by simpa using some_left)
    | cons c w => simpa using front u (c :: w) rfl (by simp)

theorem declarationHere?_of_ne {c : Char} (other : c ≠ 'f') (t : Text) :
    declarationHere? (c :: t) = none := by
  rw [Option.eq_none_iff_forall_ne_some]
  rintro ⟨name, params⟩ read
  obtain ⟨_, _, gap, gap', rest, _, _, _, shape⟩ := declarationHere?_iff.mp read
  exact other (by simp_all)

theorem passes_of_ne {x : Text} (other : ∀ c ∈ x, c ≠ 'f') (rest : Text) : Passes x rest := by
  rintro u v rfl some_left
  obtain ⟨c, v, rfl⟩ := List.exists_cons_of_ne_nil some_left
  exact declarationHere?_of_ne (other c (by simp)) (v ++ rest)

theorem declarationFrom?_here {before t name params : Text} (starts : atWordStart before = true)
    (here : declarationHere? t = some (name, params)) :
    declarationFrom? before t = some (before.reverse, name, params) := by
  cases t with
  | nil => cases here
  | cons c t => simp [declarationFrom?, starts, here]

-- The search goes over what holds no declaration and keeps it.
theorem declarationFrom?_append {x rest : Text} (passes : Passes x rest)
    (single : ∀ c ∈ x, isTerminator c = false) (before : Text) :
    declarationFrom? before (x ++ rest) = declarationFrom? (x.reverse ++ before) rest := by
  induction x generalizing before with
  | nil => rfl
  | cons c x ih =>
    have none_here : declarationHere? (c :: (x ++ rest)) = none := passes [] (c :: x) rfl (by simp)
    have later : Passes x rest := by
      rintro u v rfl some_left
      exact passes (c :: u) v rfl some_left
    simp [declarationFrom?, none_here, single c (by simp),
      ih later fun d member => single d (by simp [member])]

theorem hasControlWord_nil : hasControlWord [] = false := by decide

theorem hasControlWord_cut {c : Char} (cut : isWord c = false) (x y : Text) :
    hasControlWord (x ++ c :: y) = (hasControlWord x || hasControlWord y) := by
  rw [hasControlWord, List.splitOnP_append_cons x y (by simp [cut]), List.any_append]
  rfl

theorem hasControlWord_of_no_word {x : Text} (no_word : ∀ c ∈ x, isWord c = false) (y : Text) :
    hasControlWord (x ++ y) = hasControlWord y := by
  induction x with
  | nil => rfl
  | cons c x ih =>
    have cut := hasControlWord_cut (no_word c (by simp)) [] (x ++ y)
    rw [hasControlWord_nil, Bool.false_or, ih fun d member => no_word d (by simp [member])] at cut
    exact cut

theorem isWord_of_isBlank {c : Char} (blank : isBlank c = true) : isWord c = false := by
  rw [Bool.eq_false_iff]
  intro word
  simp [isBlank_of_isWord word] at blank

def IsGap (t : Text) : Prop := ∀ c ∈ t, isBlank c = true ∧ isTerminator c = false

instance (t : Text) : Decidable (IsGap t) :=
  List.decidableBAll (fun c => isBlank c = true ∧ isTerminator c = false) t

/-- What may stand before a definition on its line: blanks, or `local` among blanks. -/
def IsMargin (t : Text) : Prop :=
  IsGap t ∨ ∃ indent gap, IsGap indent ∧ gap ≠ [] ∧ IsGap gap ∧ t = indent ++ "local".toList ++ gap

theorem IsGap.ne {t : Text} (blanks : IsGap t) {d : Char} (shown : isBlank d = false) :
    ∀ c ∈ t, c ≠ d := by
  rintro c member rfl
  simp [(blanks c member).1] at shown

theorem IsMargin.plain {t : Text} (margin : IsMargin t) :
    ∀ c ∈ t, c ≠ 'f' ∧ c ≠ '-' ∧ isTerminator c = false := by
  have of_gap {x : Text} (blanks : IsGap x) : ∀ c ∈ x, c ≠ 'f' ∧ c ≠ '-' ∧ isTerminator c = false :=
    fun c member => ⟨blanks.ne (by decide) c member, blanks.ne (by decide) c member,
      (blanks c member).2⟩
  rcases margin with blanks | ⟨indent, gap, indented, _, blanks, rfl⟩
  · exact of_gap blanks
  · have keyword : ∀ c ∈ "local".toList, c ≠ 'f' ∧ c ≠ '-' ∧ isTerminator c = false := by
      simp [isTerminator]
    intro c member
    rw [List.mem_append, List.mem_append] at member
    rcases member with (member | member) | member
    · exact of_gap indented c member
    · exact keyword c member
    · exact of_gap blanks c member

theorem IsMargin.hasControlWord {t : Text} (margin : IsMargin t) (y : Text) :
    hasControlWord (t ++ y) = hasControlWord y := by
  have of_gap {x : Text} (blanks : IsGap x) (y : Text) :
      Signature.hasControlWord (x ++ y) = Signature.hasControlWord y :=
    hasControlWord_of_no_word (fun c member => isWord_of_isBlank (blanks c member).1) y
  rcases margin with blanks | ⟨indent, gap, indented, some_gap, blanks, rfl⟩
  · exact of_gap blanks y
  · obtain ⟨c, gap, rfl⟩ := List.exists_cons_of_ne_nil some_gap
    have cut :=
      hasControlWord_cut (isWord_of_isBlank (blanks c (by simp)).1) "local".toList (gap ++ y)
    have keyword : Signature.hasControlWord "local".toList = false := by decide
    have later : IsGap gap := fun d member => blanks d (by simp [member])
    rw [keyword, Bool.false_or, of_gap later] at cut
    simpa [of_gap indented] using cut

theorem atWordStart_iff {before : Text} :
    atWordStart before = true ↔ ∀ c ∈ before.head?, isWord c = false := by
  cases before <;> simp [atWordStart]

theorem IsMargin.atWordStart {t : Text} (margin : IsMargin t) : atWordStart t.reverse = true := by
  rw [atWordStart_iff, List.head?_reverse]
  intro c last
  have blank : isBlank c = true := by
    rcases margin with blanks | ⟨indent, gap, _, some_gap, blanks, rfl⟩
    · exact (blanks c (List.mem_of_getLast? last)).1
    · rw [List.getLast?_append_of_ne_nil _ some_gap] at last
      exact (blanks c (List.mem_of_getLast? last)).1
  exact isWord_of_isBlank blank

theorem includes_of_not_mem {x : Text} (plain : ∀ c ∈ x, c ≠ '-') (y : Text) :
    includes "--" (x ++ y) = includes "--" y := by
  induction x with
  | nil => rfl
  | cons c x ih =>
    have other : '-' ≠ c := (plain c (by simp)).symm
    have no_start : after? "--" (c :: (x ++ y)) = none := by
      simp [after?, List.isPrefixOf?, other]
    simpa [includes, no_start] using ih fun d member => plain d (by simp [member])

theorem splitParams_argumentList {params : List Text} (arguments : ∀ p ∈ params, IsArgument p) :
    splitParams (argumentList params) = params :=
  (lists_argumentList params).splitParams fun p member => (arguments p member).isEntry

theorem no_paren_argumentList {params : List Text} (arguments : ∀ p ∈ params, IsArgument p) :
    ')' ∉ argumentList params := by
  intro member
  rcases mem_intercalate member with between | ⟨p, listed, inside⟩
  · exact absurd between (by decide)
  · exact (arguments p listed).no_paren inside

theorem declares_written {gap name gap' : Text} {params : List Text} (some_gap : gap ≠ [])
    (blank : IsGap gap) (blank' : IsGap gap') (named : IsQualified name)
    (arguments : ∀ p ∈ params, IsArgument p) (rest : Text) :
    Declares ("function".toList ++ gap ++ name ++ gap' ++
      '(' :: (argumentList params ++ ')' :: rest)) name (argumentList params) :=
  ⟨named, no_paren_argumentList arguments, gap, gap', rest, some_gap,
    fun c member => (blank c member).1, fun c member => (blank' c member).1, rfl⟩

theorem declaration?_of_declares {margin t name params : Text} (led : IsMargin margin)
    (declares : Declares t name params) : declaration? (margin ++ t) = some (name, params) := by
  have passes := passes_of_ne (fun c member => (led.plain c member).1) t
  have found : declarationFrom? [] (margin ++ t) = some (margin, name, params) := by
    rw [declarationFrom?_append passes (fun c member => (led.plain c member).2.2), List.append_nil,
      declarationFrom?_here led.atWordStart (declarationHere?_iff.mpr declares),
      List.reverse_reverse]
  have shown : includes "--" margin = false := by
    have same := includes_of_not_mem (fun c member => (led.plain c member).2.1) []
    rwa [List.append_nil] at same
  have free : hasControlWord margin = false := by
    have same := led.hasControlWord []
    rwa [List.append_nil, hasControlWord_nil] at same
  simp [declaration?, found, shown, free]

theorem ofLine?_of_declaration {line name params : Text}
    (found : declaration? line = some (name, params)) (n : Int) :
    ofLine? line n = some ⟨name, splitParams params, n⟩ := by
  simp [ofLine?, found]

/-- A declaration is read with its own name and parameters whatever they are and whatever follows:
it is the first on its line, and nothing before it keeps it from being one. -/
theorem written_declaration_recognised {margin gap name gap' : Text} {params : List Text}
    (led : IsMargin margin) (some_gap : gap ≠ []) (blank : IsGap gap) (blank' : IsGap gap')
    (named : IsQualified name) (arguments : ∀ p ∈ params, IsArgument p) (rest : Text) (n : Int) :
    ofLine? (margin ++ ("function".toList ++ gap ++ name ++ gap' ++
      '(' :: (argumentList params ++ ')' :: rest))) n = some ⟨name, params, n⟩ := by
  have declares := declares_written some_gap blank blank' named arguments rest
  rw [ofLine?_of_declaration (declaration?_of_declares led declares),
    splitParams_argumentList arguments]

-- Neither the keyword, a comment or control flow among the parameters nor a declaration after them
-- counts.
theorem written_declaration_recognised_sample :
    let margin := "\t local\u00a0 ".toList
    let gap := " \u3000".toList
    let name := "M.local.f".toList
    let params := ["function g(", "-- if\n\u2028x", "..."].map String.toList
    let line :=
      "\t local\u00a0 function \u3000M.local.f(function g(, -- if\n\u2028x, ...)function h()"
    IsMargin margin ∧ IsGap gap ∧ IsGap [] ∧ IsQualified name ∧ (∀ p ∈ params, IsArgument p) ∧
      ofLine? line.toList 7 = some ⟨name, params, 7⟩ := by
  intro margin gap name params line
  have led : IsMargin margin :=
    .inr ⟨"\t ".toList, "\u00a0 ".toList, by decide, by decide, by decide, rfl⟩
  have blank : IsGap gap := by decide
  have none_between : IsGap [] := by decide
  have named : IsQualified name :=
    ⟨["M", "local", "f"].map String.toList, by decide, by decide, by decide⟩
  have arguments : ∀ p ∈ params, IsArgument p := by decide
  have parts : line.toList = margin ++ ("function".toList ++ gap ++ name ++ [] ++
      '(' :: (argumentList params ++ ')' :: "function h()".toList)) := by decide
  rw [parts]
  exact ⟨led, blank, none_between, named, arguments,
    written_declaration_recognised led (by decide) blank none_between named arguments _ 7⟩

end Signature

end DocHarvest
