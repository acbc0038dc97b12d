import DocHarvest.Proofs.Signature.Written

set_option autoImplicit false

namespace DocHarvest.Signature

open Text

def DeclaresAfter (t before name params : Text) : Prop :=
  ∃ rest, t = before ++ rest ∧ Declares rest name params ∧
    (∀ c ∈ before, isTerminator c = false) ∧ ∀ c ∈ before.getLast?, isWord c = false

def FirstDeclared (t before name params : Text) : Prop :=
  DeclaresAfter t before name params ∧ ∀ before' name' params',
    DeclaresAfter t before' name' params' → before.length ≤ before'.length

theorem declaresAfter_of_found {t before name params : Text}
    (found : declarationFrom? [] t = some (before, name, params)) :
    DeclaresAfter t before name params := by
  obtain ⟨u, v, rfl, rfl, here, single, starts⟩ := declarationFrom?_split found
  rw [List.append_nil, atWordStart_iff, List.head?_reverse] at starts
  exact ⟨v, rfl, declarationHere?_iff.mp here, single, starts⟩

theorem declarationFrom?_reaches {u v name params before : Text}
    (here : declarationHere? v = some (name, params)) (single : ∀ c ∈ u, isTerminator c = false)
    (starts : atWordStart (u.reverse ++ before) = true) : ∃ w name' params',
      declarationFrom? before (u ++ v) = some (before.reverse ++ w, name', params') ∧
        w.length ≤ u.length := by
  induction u generalizing before with
  | nil => exact ⟨[], name, params, by simpa using declarationFrom?_here starts here, by simp⟩
  | cons c u ih =>
    have further : atWordStart (u.reverse ++ c :: before) = true := by simpa using starts
    obtain ⟨w, name', params', found, earlier⟩ :=
      ih (fun d member => single d (by simp [member])) further
    rw [List.cons_append, declarationFrom?]
    split
    · next name' params' _ => exact ⟨[], name', params', by simp, by simp⟩
    · refine ⟨c :: w, name', params', ?_, by simpa using earlier⟩
      simpa [single c (by simp)] using found

theorem declarationFrom?_iff {t before name params : Text} :
    declarationFrom? [] t = some (before, name, params) ↔ FirstDeclared t before name params := by
  have reaches {b m q : Text} (declares : DeclaresAfter t b m q) : ∃ w m' q',
      declarationFrom? [] t = some (w, m', q') ∧ w.length ≤ b.length := by
    obtain ⟨rest, rfl, here, single, starts⟩ := declares
    rw [← List.head?_reverse, ← atWordStart_iff, ← List.append_nil b.reverse] at starts
    exact declarationFrom?_reaches (declarationHere?_iff.mpr here) single starts
  constructor
  · intro found
    refine ⟨declaresAfter_of_found found, ?_⟩
    intro before' name' params' other
    obtain ⟨w, _, _, found', earlier⟩ := reaches other
    obtain ⟨rfl, _⟩ : before = w ∧ _ := by simpa [found] using found'
    exact earlier
  · rintro ⟨declares, first⟩
    obtain ⟨w, name', params', found, earlier⟩ := reaches declares
    have declares' := declaresAfter_of_found found
    have later := first w name' params' declares'
    obtain ⟨rest, rfl, here, _⟩ := declares
    obtain ⟨rest', split, here', _⟩ := declares'
    obtain ⟨rfl, rfl⟩ := List.append_inj split (Nat.le_antisymm later earlier)
    have same := (declarationHere?_iff.mpr here).symm.trans (declarationHere?_iff.mpr here')
    obtain ⟨rfl, rfl⟩ : name = name' ∧ params = params' := by simpa using same
    exact found

theorem declarationFrom?_start {before : Text} (starts : atWordStart before = true) (x t : Text) :
    declarationFrom? (x ++ before) t =
      (declarationFrom? x t).map fun (b, name, params) => (before.reverse ++ b, name, params) := by
  induction t generalizing x with
  | nil => rfl
  | cons c t ih =>
    have same : atWordStart (x ++ before) = atWordStart x := by
      cases x with
      | nil => exact starts
      | cons d x => rfl
    have later := ih (c :: x)
    rw [List.cons_append] at later
    rw [declarationFrom?, declarationFrom?, same]
    split
    · simp_all
    · split <;> simp_all

def IsParameter (p : Text) : Prop := isIdentifier p = true ∨ p = "...".toList

instance (p : Text) : Decidable (IsParameter p) :=
  inferInstanceAs (Decidable (isIdentifier p = true ∨ p = "...".toList))

theorem IsParameter.isNameChar {p : Text} (parameter : IsParameter p) :
    p ≠ [] ∧ ∀ c ∈ p, isNameChar c = true := by
  rcases parameter with identifier | rfl
  · refine ⟨(by rintro rfl; cases identifier), ?_⟩
    intro c member
    simp [Signature.isNameChar, isWord_of_isIdentifier identifier c member]
  · exact ⟨by decide, List.all_eq_true.mp (by decide)⟩

theorem IsParameter.isArgument {p : Text} (parameter : IsParameter p) : IsArgument p := by
  obtain ⟨shown, inside⟩ := parameter.isNameChar
  have absent {d : Char} (foreign : Signature.isNameChar d = false) : d ∉ p := by
    intro member
    simp [inside d member] at foreign
  refine ⟨shown, trim_of_ends ?_ ?_, absent (by decide), absent (by decide)⟩
  · intro c first
    exact isBlank_of_isNameChar (inside c (List.mem_of_mem_head? first))
  · intro c last
    exact isBlank_of_isNameChar (inside c (List.mem_of_getLast? last))

-- A run of name characters holds the keyword of a declaration only if a name follows the run.
theorem passes_of_run {x gap : Text} {c : Char} (run : ∀ d ∈ x, isNameChar d = true)
    (blank : ∀ d ∈ gap, isBlank d = true) (shown : isBlank c = false)
    (foreign : isNameChar c = false) (rest : Text) : Passes x (gap ++ c :: rest) := by
  rintro u v rfl some_left
  rw [Option.eq_none_iff_forall_ne_some]
  rintro ⟨name, params⟩ read
  obtain ⟨named, _, gap', _, _, some_gap, blank', _, shape⟩ := declarationHere?_iff.mp read
  obtain ⟨first, name, rfl, starts⟩ := named.exists_cons
  have named_rest {r : Text} (after : gap ++ c :: rest = gap' ++ first :: r) : False := by
    have word : isWord first = true := by simp [isWord, starts]
    have same := congrArg dropBlanks after
    rw [dropBlanks_append_of_blank blank, dropBlanks_append_of_blank blank',
      dropBlanks_of_head (by simpa using shown),
      dropBlanks_of_head (by simpa using isBlank_of_isWord word)] at same
    obtain ⟨rfl, _⟩ := List.cons.inj same
    simp [isNameChar, word] at foreign
  simp only [List.append_assoc, List.cons_append] at shape
  -- The keyword ends with the run, behind it, or before it does.
  rcases List.append_eq_append_iff.mp shape with ⟨a, keyword, after⟩ | ⟨a, rfl, after⟩
  · cases a with
    | nil => exact named_rest after
    | cons d a =>
      have letter : ∀ e ∈ "function".toList, isNameChar e = true :=
        List.all_eq_true.mp (by decide)
      have inside := letter d (by simp [keyword])
      have apart := head_no_name_char blank foreign rest d (by simp [after])
      simp [apart] at inside
  · cases a with
    | nil => exact named_rest after.symm
    | cons d a =>
      obtain ⟨e, gap', rfl⟩ := List.exists_cons_of_ne_nil some_gap
      obtain ⟨rfl, _⟩ : e = d ∧ _ := by simpa using after
      have shown := isBlank_of_isNameChar (run e (by simp))
      simp [blank' e (by simp)] at shown

theorem passes_before {x : Text} {c : Char} (run : ∀ d ∈ x, isNameChar d = true)
    (shown : isBlank c = false) (foreign : isNameChar c = false) (rest : Text) :
    Passes x (c :: rest) :=
  passes_of_run run (List.forall_mem_nil _) shown foreign rest

theorem passes_argumentList {params : List Text} (parameters : ∀ p ∈ params, IsParameter p)
    (rest : Text) : Passes (argumentList params) (')' :: rest) := by
  induction params with
  | nil => exact passes_of_ne (by simp [argumentList]) _
  | cons p ps ih =>
    have run := (parameters p (by simp)).isNameChar.2
    cases ps with
    | nil =>
      rw [argumentList, List.intercalate_singleton]
      exact passes_before run (by decide) (by decide) rest
    | cons q qs =>
      have later := ih fun r member => parameters r (by simp [member])
      rw [argumentList, List.intercalate_cons_cons]
      refine Passes.append (Passes.append ?_ (passes_of_ne (by simp) _)) later
      exact passes_before run (by decide) (by decide) _

def assigned (name : Text) (params : List Text) : Text :=
  name ++ " = function(".toList ++ argumentList params ++ [')']

variable {margin name : Text} {params : List Text}

theorem assigned_eq (name : Text) (params : List Text) : assigned name params =
    name ++ (" = ".toList ++ ("function".toList ++ ('(' :: (argumentList params ++ [')'])))) := by
  simp [assigned]

theorem passes_assigned (named : IsQualified name)
    (parameters : ∀ p ∈ params, IsParameter p) (body : Text) :
    Passes (assigned name params) body := by
  have blank : ∀ d ∈ [' '], isBlank d = true := List.all_eq_true.mp (by decide)
  have keyword : ∀ d ∈ "function".toList, isNameChar d = true := List.all_eq_true.mp (by decide)
  rw [assigned_eq]
  refine Passes.append ?_ (Passes.append (passes_of_ne (by simp) _) (Passes.append ?_ ?_))
  · exact passes_of_run named.isNameChar blank (by decide) (by decide) _
  · exact passes_before keyword (by decide) (by decide) _
  · exact Passes.append (x := ['(']) (passes_of_ne (by simp) _)
      (Passes.append (passes_argumentList parameters body) (passes_of_ne (by simp) _))

theorem plain_of_isNameChar {c : Char} (inside : isNameChar c = true) :
    c ≠ '-' ∧ isTerminator c = false := by
  refine ⟨(by rintro rfl; exact absurd inside (by decide)), ?_⟩
  rw [Bool.eq_false_iff]
  intro ends
  have shown := isBlank_of_isNameChar inside
  simp [isBlank_of_isTerminator ends] at shown

theorem plain_assigned (named : IsQualified name)
    (parameters : ∀ p ∈ params, IsParameter p) :
    ∀ c ∈ assigned name params, c ≠ '-' ∧ isTerminator c = false := by
  have keyword : ∀ c ∈ " = function(".toList, c ≠ '-' ∧ isTerminator c = false := by
    simp [isTerminator]
  have between : ∀ c ∈ [',', ' '], c ≠ '-' ∧ isTerminator c = false := by simp [isTerminator]
  intro c member
  simp only [assigned, List.mem_append, List.mem_singleton] at member
  rcases member with ((member | member) | member) | rfl
  · exact plain_of_isNameChar (named.isNameChar c member)
  · exact keyword c member
  · rcases mem_intercalate member with comma | ⟨p, listed, inside⟩
    · exact between c comma
    · exact plain_of_isNameChar ((parameters p listed).isNameChar.2 c inside)
  · decide

theorem hasControlWord_argumentList (params : List Text) :
    hasControlWord (argumentList params) = params.any hasControlWord := by
  induction params with
  | nil => exact hasControlWord_nil
  | cons p ps ih =>
    cases ps with
    | nil => simp [argumentList]
    | cons q qs =>
      have comma := hasControlWord_cut (c := ',') (by decide) p (' ' :: argumentList (q :: qs))
      have blank := hasControlWord_cut (c := ' ') (by decide) [] (argumentList (q :: qs))
      rw [hasControlWord_nil, Bool.false_or, List.nil_append, ih] at blank
      rw [blank] at comma
      rw [argumentList, List.intercalate_cons_cons, List.append_assoc]
      exact comma

theorem hasControlWord_assigned (name : Text) (params : List Text) (y : Text) :
    hasControlWord (assigned name params ++ y) =
      (hasControlWord name || params.any hasControlWord || hasControlWord y) := by
  have sign : ∀ c ∈ "= ".toList, isWord c = false := by
    simpa using (by decide : isWord '=' = false ∧ isWord ' ' = false)
  have keyword : hasControlWord "function".toList = false := by decide
  have parts : assigned name params ++ y = name ++ ' ' ::
      ("= ".toList ++ ("function".toList ++ '(' :: (argumentList params ++ ')' :: y))) := by
    simp [assigned]
  rw [parts, hasControlWord_cut (by decide), hasControlWord_of_no_word sign,
    hasControlWord_cut (by decide), hasControlWord_cut (by decide), keyword,
    hasControlWord_argumentList, Bool.false_or, Bool.or_assoc]

theorem name?_assigned (named : IsQualified name) (params : List Text) (body : Text) :
    name? (assigned name params ++ body) = some (name,
      ' ' :: '=' :: ' ' :: ("function".toList ++ '(' :: (argumentList params ++ ')' :: body))) := by
  have stops : isNameChar ' ' = false := by decide
  exact name?_eq_some.mpr ⟨named, by simpa using stops, by simp [assigned]⟩

theorem assignmentHere?_assigned (named : IsQualified name)
    (parameters : ∀ p ∈ params, IsParameter p) (body : Text) :
    assignmentHere? (assigned name params ++ body) = some (name, argumentList params) := by
  have unclosed := no_paren_argumentList fun p member => (parameters p member).isArgument
  have sign (t : Text) : after? "=" (dropBlanks (' ' :: '=' :: t)) = some t := by
    rw [Comment.after?_eq_some]
    rfl
  have keyword (t : Text) :
      after? "function" (dropBlanks (' ' :: ("function".toList ++ t))) = some t := by
    rw [Comment.after?_eq_some]
    rfl
  have closed : parenthesised? ('(' :: (argumentList params ++ ')' :: body)) =
      some (argumentList params) :=
    parenthesised?_eq_some.mpr ⟨unclosed, [], body, by simp, rfl⟩
  simp [assignmentHere?, name?_assigned named, sign, keyword, closed, -String.reduceToList]

theorem head_of_assignmentHere? {t name params : Text}
    (read : assignmentHere? t = some (name, params)) : ∀ c ∈ t.head?, isNameStart c = true := by
  simp only [assignmentHere?, Option.bind_eq_bind, Option.bind_eq_some_iff, Prod.exists,
    name?_eq_some] at read
  obtain ⟨name, rest, ⟨named, _, rfl⟩, _⟩ := read
  obtain ⟨c, more, rfl, starts⟩ := named.exists_cons
  simpa using starts

-- A name `local` is followed by `=`, the keyword by another name.
theorem no_local_assigned (named : IsQualified name) (params : List Text) (body : Text) :
    ((after? "local" (assigned name params ++ body)).bind afterBlanks?).bind assignmentHere? =
      none := by
  rw [Option.eq_none_iff_forall_ne_some]
  rintro ⟨name', params'⟩ read
  simp only [Option.bind_eq_some_iff, Comment.after?_eq_some, afterBlanks?_eq_some] at read
  obtain ⟨t, ⟨_, keyword, gap, some_gap, blank, shown, rfl⟩, here⟩ := read
  have starts := head_of_assignmentHere? here
  have stops : ∀ c ∈ (gap ++ t).head?, isNameChar c = false := by
    obtain ⟨c, gap, rfl⟩ := List.exists_cons_of_ne_nil some_gap
    simpa using isNameChar_of_isBlank (blank c (by simp))
  have whole : name? (assigned name params ++ body) = some ("local".toList, gap ++ t) :=
    name?_eq_some.mpr ⟨⟨["local".toList], by decide, by decide, by decide⟩, stops, keyword⟩
  rw [name?_assigned named] at whole
  have same := congrArg dropBlanks (Prod.mk.inj (Option.some.inj whole)).2
  rw [dropBlanks_append_of_blank blank, dropBlanks_of_head shown] at same
  have sign := starts '=' (by rw [← same]; rfl)
  exact absurd sign (by decide)

theorem assignment?_assigned (led : IsMargin margin) (named : IsQualified name)
    (parameters : ∀ p ∈ params, IsParameter p) (body : Text) :
    assignment? (margin ++ (assigned name params ++ body)) = some (name, argumentList params) := by
  have here := assignmentHere?_assigned named parameters body
  have shown : ∀ c ∈ (assigned name params ++ body).head?, isBlank c = false := fun c first =>
    isBlank_of_isWord (by simp [isWord, head_of_assignmentHere? here c first])
  rcases led with blanks | ⟨indent, gap, indented, some_gap, blanks, rfl⟩
  · have opened : dropBlanks (margin ++ (assigned name params ++ body)) =
        assigned name params ++ body := by
      rw [dropBlanks_append_of_blank fun c member => (blanks c member).1, dropBlanks_of_head shown]
    rw [assignment?, opened, no_local_assigned named, Option.none_or, here]
  · have opened : dropBlanks (indent ++ "local".toList ++ gap ++ (assigned name params ++ body)) =
        "local".toList ++ (gap ++ (assigned name params ++ body)) := by
      rw [List.append_assoc, List.append_assoc,
        dropBlanks_append_of_blank fun c member => (indented c member).1]
      rfl
    have keyword : after? "local" ("local".toList ++ (gap ++ (assigned name params ++ body))) =
        some (gap ++ (assigned name params ++ body)) := Comment.after?_eq_some.mpr rfl
    have blank : afterBlanks? (gap ++ (assigned name params ++ body)) =
        some (assigned name params ++ body) :=
      afterBlanks?_eq_some.mpr ⟨gap, some_gap, fun c member => (blanks c member).1, shown, rfl⟩
    rw [assignment?, opened, keyword, Option.bind_some, blank, Option.bind_some, here,
      Option.some_or]

/-- Whether a declaration in the body of a function assigned to a name is given up: a comment or a
word of control flow stands before it, be it one of the names. -/
def guards (name : Text) (params : List Text) (before : Text) : Bool :=
  includes "--" before || (before :: name :: params).any hasControlWord

theorem declaration?_assigned (led : IsMargin margin) (named : IsQualified name)
    (parameters : ∀ p ∈ params, IsParameter p) (body : Text) :
    declaration? (margin ++ (assigned name params ++ body)) =
      (declarationFrom? [] body).bind fun (before, inner, args) =>
        if guards name params before then none else some (inner, args) := by
  have plain : ∀ c ∈ margin ++ assigned name params, c ≠ '-' ∧ isTerminator c = false := by
    intro c member
    rcases List.mem_append.mp member with front | back
    · exact (led.plain c front).2
    · exact plain_assigned named parameters c back
  have starts : atWordStart (margin ++ assigned name params).reverse = true := by
    rw [atWordStart_iff, assigned]
    simpa using (by decide : isWord ')' = false)
  have passes : Passes (margin ++ assigned name params) body :=
    Passes.append (passes_of_ne (fun c member => (led.plain c member).1) _)
      (passes_assigned named parameters body)
  have dashes (y : Text) : includes "--" (margin ++ assigned name params ++ y) = includes "--" y :=
    includes_of_not_mem (fun c member => (plain c member).1) y
  have words (y : Text) : hasControlWord (margin ++ assigned name params ++ y) =
      (y :: name :: params).any hasControlWord := by
    rw [List.append_assoc, led.hasControlWord, hasControlWord_assigned, Bool.or_comm]
    rfl
  rw [← List.append_assoc, declaration?,
    declarationFrom?_append passes fun c member => (plain c member).2]
  have shifted := declarationFrom?_start starts [] body
  rw [List.nil_append] at shifted
  rw [List.append_nil, shifted, List.reverse_reverse]
  cases declarationFrom? [] body with
  | none => rfl
  | some found =>
    obtain ⟨before, inner, args⟩ := found
    simp only [Option.map_some, Option.bind_some, dashes, words]
    rfl

theorem ofLine?_assigned (led : IsMargin margin) (named : IsQualified name)
    (parameters : ∀ p ∈ params, IsParameter p) (body : Text) (n : Int) :
    ofLine? (margin ++ (assigned name params ++ body)) n =
      match declarationFrom? [] body with
      | some (before, inner, args) =>
        if guards name params before then some ⟨name, params, n⟩
        else some ⟨inner, splitParams args, n⟩
      | none => some ⟨name, params, n⟩ := by
  have split := splitParams_argumentList fun p member => (parameters p member).isArgument
  rw [ofLine?, declaration?_assigned led named parameters,
    assignment?_assigned led named parameters]
  cases declarationFrom? [] body with
  | none => simp [split]
  | some found =>
    obtain ⟨before, inner, args⟩ := found
    cases guarded : guards name params before <;> simp [guarded, split]

/-- A function assigned to a name is taken for its definition exactly if no other declaration in
its body is: the first one there, with neither a comment nor a word of control flow before it. -/
theorem assigned_function_named_iff (led : IsMargin margin) (named : IsQualified name)
    (parameters : ∀ p ∈ params, IsParameter p) (body : Text) (n : Int) :
    let found := ofLine? (margin ++ (assigned name params ++ body)) n
    (found = some ⟨name, params, n⟩ ↔ ∀ before inner args, FirstDeclared body before inner args →
        guards name params before = true ∨ (inner = name ∧ splitParams args = params)) ∧
      ∀ before inner args, FirstDeclared body before inner args →
        guards name params before = false → found = some ⟨inner, splitParams args, n⟩ := by
  intro found
  have shape : found = _ := ofLine?_assigned led named parameters body n
  simp only [← declarationFrom?_iff]
  cases search : declarationFrom? [] body with
  | none => simp [shape, search]
  | some first =>
    obtain ⟨before, inner, args⟩ := first
    cases guarded : guards name params before <;> simp [shape, search, guarded]

-- One word before the inner declaration makes the difference.
theorem assigned_function_named_iff_sample :
    let margin := "\tlocal ".toList
    let name := "f".toList
    let params := ["x", "..."].map String.toList
    let guarded := "\tlocal f = function(x, ...) if x then function M.g(y) end end"
    let bare := "\tlocal f = function(x, ...) function M.g(y) end end"
    IsMargin margin ∧ IsQualified name ∧ (∀ p ∈ params, IsParameter p) ∧
      ofLine? guarded.toList 3 = some ⟨name, params, 3⟩ ∧
      ofLine? bare.toList 3 = some ⟨"M.g".toList, ["y".toList], 3⟩ := by
  intro margin name params guarded bare
  have led : IsMargin margin := .inr ⟨['\t'], [' '], by decide, by decide, by decide, rfl⟩
  have named : IsQualified name := ⟨[name], by decide, by decide, by decide⟩
  have parameters : ∀ p ∈ params, IsParameter p := by decide
  have parts (body line : String)
      (whole : line.toList = margin ++ (assigned name params ++ body.toList)) :=
    whole ▸ assigned_function_named_iff led named parameters body.toList 3
  have first : FirstDeclared " function M.g(y) end end".toList " ".toList "M.g".toList "y".toList :=
    declarationFrom?_iff.mp (by decide)
  refine ⟨led, named, parameters, ?_, ?_⟩
  · refine (parts " if x then function M.g(y) end end" guarded (by decide)).1.mpr ?_
    intro before inner args declared
    have found : declarationFrom? [] " if x then function M.g(y) end end".toList =
      some (" if x then ".toList, "M.g".toList, "y".toList) := by decide
    rw [← declarationFrom?_iff, found] at declared
    obtain ⟨rfl, _⟩ := Prod.mk.inj (Option.some.inj declared)
    exact .inl (by decide)
  · exact (parts " function M.g(y) end end" bare (by decide)).2 _ _ _ first (by decide)

-- The function that is documented is `f`.
theorem assigned_function_misnamed :
    let line := "f = function(x) local function g(y) end end".toList
    IsQualified "f".toList ∧ IsParameter "x".toList ∧
      line = assigned "f".toList ["x".toList] ++ " local function g(y) end end".toList ∧
      ofLine? line 1 = some ⟨"g".toList, ["y".toList], 1⟩ :=
  ⟨⟨["f".toList], by decide, by decide, by decide⟩, by decide, by decide, by decide⟩

end DocHarvest.Signature
