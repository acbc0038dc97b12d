import DocHarvest.Proofs.Comment.Acceptance
import DocHarvest.Proofs.Signature.ParameterList

set_option autoImplicit false

namespace DocHarvest

namespace Text

theorem includes_append {part : String} {t : Text} (found : includes part t = true) (x : Text) :
    includes part (x ++ t) = true := by
  induction x with
  | nil => exact found
  | cons c x ih => simp [includes, ih]

end Text

namespace Signature

theorem declarationFrom?_split {before t b name params : Text}
    (read : declarationFrom? before t = some (b, name, params)) : ∃ u v,
      t = u ++ v ∧ b = before.reverse ++ u ∧ declarationHere? v = some (name, params) ∧
        (∀ c ∈ u, Text.isTerminator c = false) ∧ atWordStart (u.reverse ++ before) = true := by
  induction t generalizing before with
  | nil => simp [declarationFrom?] at read
  | cons c t ih =>
    rw [declarationFrom?] at read
    split at read
    · next here =>
      obtain ⟨rfl, rfl, rfl⟩ : before.reverse = b ∧ _ ∧ _ := by simpa using read
      split at here
      · next starts => exact ⟨[], c :: t, rfl, by simp, here, by simp, starts⟩
      · cases here
    · split at read
      · cases read
      · next inside =>
        obtain ⟨u, v, rfl, rfl, found, single, starts⟩ := ih read
        exact ⟨c :: u, v, rfl, by simp, found, by simpa [inside] using single,
          by simpa using starts⟩

theorem declarationHere?_eq_some {t name params : Text}
    (read : declarationHere? t = some (name, params)) : ∃ r u v,
      t = "function".toList ++ r ∧ name? u = some (name, v) ∧ parenthesised? v = some params := by
  simp only [declarationHere?, Option.bind_eq_bind, Option.bind_eq_some_iff, Option.pure_def,
    Option.some.injEq, Prod.mk.injEq, Prod.exists] at read
  obtain ⟨r, after, u, _, name', v, named, params', found, rfl, rfl⟩ := read
  exact ⟨r, u, v, Comment.after?_eq_some.mp after, named, found⟩

theorem assignmentHere?_eq_some {t name params : Text}
    (read : assignmentHere? t = some (name, params)) : ∃ u v,
      name? t = some (name, u) ∧ parenthesised? v = some params := by
  simp only [assignmentHere?, Option.bind_eq_bind, Option.bind_eq_some_iff, Option.pure_def,
    Option.some.injEq, Prod.mk.injEq, Prod.exists] at read
  obtain ⟨name', u, named, _, _, v, _, params', found, rfl, rfl⟩ := read
  exact ⟨u, v, named, found⟩

section Comment

variable {line : Text}

theorem dropBlanks_of_isComment (comment : Comment.isComment line = true) :
    ∃ rest, Text.dropBlanks line = '-' :: '-' :: rest := by
  simp only [Comment.isComment, Comment.split?] at comment
  split at comment
  · next rest shape => exact ⟨'-' :: rest, shape⟩
  · next rest _ shape => exact ⟨rest, shape⟩
  · cases comment

-- A text in front of a letter reaches over the marker, since no letter stands in it.
theorem includes_marker {before after rest : Text} {c : Char} (shown : Text.isBlank c = false)
    (other : c ≠ '-') (marker : Text.dropBlanks (before ++ c :: after) = '-' :: '-' :: rest) :
    Text.includes "--" before = true := by
  rw [Text.dropBlanks_append_shown shown] at marker
  have marked : Text.includes "--" (Text.dropBlanks before) = true := by
    match found : Text.dropBlanks before with
    | [] => simp_all
    | [d] => simp_all
    | d :: e :: more =>
      obtain ⟨rfl, rfl⟩ : d = '-' ∧ e = '-' := by simp_all
      have starts : Text.after? "--" ('-' :: '-' :: more) = some more :=
        Comment.after?_eq_some.mpr rfl
      simp [Text.includes, starts]
  have whole : before.takeWhile Text.isBlank ++ Text.dropBlanks before = before :=
    List.takeWhile_append_dropWhile
  rw [← whole]
  exact Text.includes_append marked _

theorem declaration?_of_isComment (comment : Comment.isComment line = true) :
    declaration? line = none := by
  obtain ⟨rest, marker⟩ := dropBlanks_of_isComment comment
  unfold declaration?
  split
  · next before name params read =>
    obtain ⟨u, v, rfl, before_eq, here, _⟩ := declarationFrom?_split read
    obtain ⟨r, _, _, rfl, _⟩ := declarationHere?_eq_some here
    have marked : Text.includes "--" u = true :=
      includes_marker (c := 'f') (by decide) (by decide) marker
    simp [before_eq, marked]
  · rfl

theorem assignment?_of_isComment (comment : Comment.isComment line = true) :
    assignment? line = none := by
  obtain ⟨rest, marker⟩ := dropBlanks_of_isComment comment
  have nameless : name? ('-' :: '-' :: rest) = none := by
    have no_name : isNameChar '-' = false := by decide
    simp [name?, no_name, isQualifiedName, List.splitOn, isIdentifier]
  have no_keyword : Text.after? "local" ('-' :: '-' :: rest) = none := rfl
  simp [assignment?, marker, no_keyword, assignmentHere?, nameless]

theorem ofLine?_of_isComment (comment : Comment.isComment line = true) (n : Int) :
    ofLine? line n = none := by
  simp [ofLine?, declaration?_of_isComment comment, assignment?_of_isComment comment]

end Comment

def IsQualified (name : Text) : Prop :=
  ∃ parts : List Text, parts ≠ [] ∧ (∀ part ∈ parts, isIdentifier part = true) ∧
    name = ['.'].intercalate parts

theorem isWord_of_isIdentifier {part : Text} (identifier : isIdentifier part = true) :
    ∀ c ∈ part, Text.isWord c = true := by
  cases part with
  | nil => simp [isIdentifier] at identifier
  | cons first rest =>
    simp only [isIdentifier, Bool.and_eq_true, List.all_eq_true] at identifier
    intro c member
    rcases List.mem_cons.mp member with rfl | member
    · simp [Text.isWord, identifier.1]
    · exact identifier.2 c member

theorem IsQualified.isIdentifier_of_mem {name : Text} (qualified : IsQualified name) :
    ∀ part ∈ name.splitOn '.', isIdentifier part = true := by
  obtain ⟨parts, some_part, identifiers, rfl⟩ := qualified
  have undotted : ∀ part ∈ parts, '.' ∉ part := by
    intro part member dotted
    exact absurd (isWord_of_isIdentifier (identifiers part member) '.' dotted) (by decide)
  rw [List.splitOn_intercalate '.' undotted some_part]
  exact identifiers

structure IsArgument (name : Text) : Prop where
  ne_nil : name ≠ []
  trim : Text.trim name = name
  no_comma : ',' ∉ name
  no_paren : ')' ∉ name

instance (name : Text) : Decidable (IsArgument name) :=
  decidable_of_iff (name ≠ [] ∧ Text.trim name = name ∧ ',' ∉ name ∧ ')' ∉ name)
    ⟨fun ⟨shown, trimmed, comma, paren⟩ => ⟨shown, trimmed, comma, paren⟩,
      fun ⟨shown, trimmed, comma, paren⟩ => ⟨shown, trimmed, comma, paren⟩⟩

theorem IsArgument.isEntry {name : Text} (argument : IsArgument name) : IsEntry name :=
  ⟨argument.ne_nil, argument.trim, argument.no_comma⟩

structure WellFormed (sig : Signature) : Prop where
  name : IsQualified sig.name
  params : ∀ p ∈ sig.params, IsArgument p

theorem isQualified_of_name? {t name rest : Text} (read : name? t = some (name, rest)) :
    IsQualified name := by
  simp only [name?, Option.ite_none_right_eq_some, Option.some.injEq, Prod.mk.injEq] at read
  obtain ⟨qualified, rfl, _⟩ := read
  refine ⟨_, List.splitOn_ne_nil '.' _, ?_, (List.intercalate_splitOn '.').symm⟩
  exact List.all_eq_true.mp qualified

theorem no_paren_of_parenthesised? {t params : Text} (read : parenthesised? t = some params) :
    ')' ∉ params := by
  unfold parenthesised? at read
  split at read
  · simp only [Option.ite_none_right_eq_some, Option.some.injEq] at read
    obtain ⟨_, rfl⟩ := read
    intro member
    simpa using List.mem_takeWhile_imp member
  · cases read

theorem isArgument_of_mem_splitParams {t p : Text} (closed : ')' ∉ t) (member : p ∈ splitParams t) :
    IsArgument p := by
  have found := mem_splitParams member
  have entry : IsEntry p := found.1
  exact ⟨entry.ne_nil, entry.trim, entry.no_comma, fun paren => closed (found.2 ')' paren)⟩

-- Both shapes of a definition read a name and then a text up to the parenthesis.
theorem exists_parts_of_ofLine? {line : Text} {n : Int} {sig : Signature}
    (read : ofLine? line n = some sig) : ∃ name params u v w,
      name? u = some (name, v) ∧ parenthesised? w = some params ∧
        sig = ⟨name, splitParams params, n⟩ := by
  simp only [ofLine?, Option.map_eq_some_iff, Option.or_eq_some_iff, Prod.exists] at read
  obtain ⟨name, params, found, rfl⟩ := read
  rcases found with declared | ⟨_, assigned⟩
  · unfold declaration? at declared
    split at declared
    · next shape =>
      simp only [Option.ite_none_left_eq_some, Option.some.injEq, Prod.mk.injEq] at declared
      obtain ⟨_, rfl, rfl⟩ := declared
      obtain ⟨u, v, _, _, here, _⟩ := declarationFrom?_split shape
      obtain ⟨_, u, v, _, named, closed⟩ := declarationHere?_eq_some here
      exact ⟨_, _, u, v, v, named, closed, rfl⟩
    · cases declared
  · have here : ∃ t, assignmentHere? t = some (name, params) := by
      simp only [assignment?, Option.or_eq_some_iff, Option.bind_eq_some_iff] at assigned
      rcases assigned with ⟨t, _, here⟩ | ⟨_, here⟩
      · exact ⟨t, here⟩
      · exact ⟨_, here⟩
    obtain ⟨t, here⟩ := here
    obtain ⟨u, v, named, closed⟩ := assignmentHere?_eq_some here
    exact ⟨name, params, t, u, v, named, closed, rfl⟩

theorem wellFormed_of_ofLine? {line : Text} {n : Int} {sig : Signature}
    (read : ofLine? line n = some sig) : sig.WellFormed := by
  obtain ⟨name, params, _, _, _, named, closed, rfl⟩ := exists_parts_of_ofLine? read
  refine ⟨isQualified_of_name? named, ?_⟩
  exact fun p => isArgument_of_mem_splitParams (no_paren_of_parenthesised? closed)

end Signature

end DocHarvest
