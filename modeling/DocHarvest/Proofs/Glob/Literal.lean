import DocHarvest.Glob.Search
import DocHarvest.Proofs.Files.Names
import DocHarvest.Proofs.Glob.Braces

set_option autoImplicit false

namespace DocHarvest.Glob

section Signs

theorem assemble_of_no_opening {current : List Piece} {ss : List Sign}
    (no_group : ∀ times c, .opening times c ∉ ss) :
    assemble [] current ss = current.reverse ++ plainly ss := by
  induction ss generalizing current with
  | nil => simp [assemble]
  | cons s ss ih =>
    have later (current : List Piece) : assemble [] current ss = current.reverse ++ plainly ss :=
      ih fun times c inside => no_group times c (List.mem_cons_of_mem s inside)
    cases s with
    | opening times c => exact absurd List.mem_cons_self (no_group times c)
    | piece p => simp [assemble, later, Sign.plain]
    | bar => simp [assemble, later, Sign.plain]
    | closing => simp [assemble, later, Sign.plain]

end Signs

section Segments

variable {t : Text}

theorem marks_of_no_escape (no_escape : '\\' ∉ t) : marks t = t.map fun c => (c, false) := by
  induction t with
  | nil => rfl
  | cons c t ih =>
    have plain : c ≠ '\\' := fun same => no_escape (by simp [same])
    rw [marks_cons plain, ih fun inside => no_escape (by simp [inside]), List.map_cons]

theorem mem_of_mem_marks (no_escape : '\\' ∉ t) {m : Mark} (listed : m ∈ marks t) :
    m.1 ∈ t ∧ m.2 = false := by
  rw [marks_of_no_escape no_escape] at listed
  obtain ⟨c, inside, rfl⟩ := List.mem_map.mp listed
  exact ⟨inside, rfl⟩

theorem plainly_signs {ms : List Mark} (plain : ∀ m ∈ ms, m.2 = false ∧ m.1 ≠ '[') :
    plainly (signs ms) = ms.map fun m => pieceOf m.1 := by
  have later {m : Mark} {ms : List Mark} (plain : ∀ n ∈ m :: ms, n.2 = false ∧ n.1 ≠ '[') :
      ∀ n ∈ ms, n.2 = false ∧ n.1 ≠ '[' := fun n inside => plain n (List.mem_cons_of_mem m inside)
  fun_induction signs ms with
  | case1 => rfl
  | case2 => simpa using (plain _ List.mem_cons_self).1
  | case3 => exact absurd rfl (plain _ List.mem_cons_self).2
  | case4 => exact absurd rfl (plain _ List.mem_cons_self).2
  | case5 _ _ _ _ ih => simp [Sign.plain, pieceOf, ih (later plain)]
  | case6 _ _ _ _ _ ih => simp [Sign.plain, pieceOf, ih (later plain)]
  | case7 _ _ _ _ _ _ _ _ _ ih => simp [Sign.plain, pieceOf, ih (later (later plain))]
  | case8 _ _ _ _ _ _ _ _ ih => simp [Sign.plain, ih (later plain)]

theorem opening_not_mem_signs {ms : List Mark} (no_paren : ∀ m ∈ ms, m.1 ≠ '(')
    (no_class : ∀ m ∈ ms, m.1 ≠ '[') (times : Times) (c : Char) :
    .opening times c ∉ signs ms := by
  fun_induction signs ms with
  | case1 => simp
  | case3 => exact absurd rfl (no_class _ List.mem_cons_self)
  | case4 => exact absurd rfl (no_class _ List.mem_cons_self)
  | case7 => exact absurd rfl (no_paren ('(', false) (by simp))
  | case2 | case5 | case6 | case8 => simp_all

theorem plainly_signs_marks (no_class : '[' ∉ t) (no_escape : '\\' ∉ t) :
    plainly (signs (marks t)) = t.map pieceOf := by
  have plain (m : Mark) (listed : m ∈ marks t) : m.2 = false ∧ m.1 ≠ '[' :=
    have ⟨inside, unescaped⟩ := mem_of_mem_marks no_escape listed
    ⟨unescaped, fun same => no_class (same ▸ inside)⟩
  rw [plainly_signs plain, marks_of_no_escape no_escape, List.map_map, Function.comp_def]

theorem all_isPlain_iff : (t.map pieceOf).all Piece.isPlain = true ↔ '*' ∉ t ∧ '?' ∉ t := by
  induction t with
  | nil => simp
  | cons c t ih =>
    by_cases star : c = '*'
    · simp [pieceOf, star, Piece.isPlain]
    · by_cases one : c = '?'
      · simp [pieceOf, one, Piece.isPlain]
      · simp only [List.map_cons, List.all_cons, Bool.and_eq_true, ih, List.mem_cons, not_or]
        simp [pieceOf, star, one, Piece.isPlain, Ne.symm star, Ne.symm one]

theorem filterMap_plain? (no_star : '*' ∉ t) (no_one : '?' ∉ t) :
    (t.map pieceOf).filterMap Piece.plain? = t := by
  rw [List.filterMap_map]
  refine (List.filterMap_congr fun c member => ?_).trans (List.filterMap_some)
  have star : c ≠ '*' := fun same => no_star (same ▸ member)
  have one : c ≠ '?' := fun same => no_one (same ▸ member)
  simp [pieceOf, star, one, Piece.plain?]

end Segments

def IsLiteral (name : Text) : Prop := Segment.ofText name = .name name

theorem IsLiteral.ne_starStar {name : Text} (literal : IsLiteral name) : name ≠ starStar := by
  rintro rfl
  simp [IsLiteral, Segment.ofText, starStar] at literal

-- The characters that may stand for more than themselves, the parenthesis only after another one.
def special : List Char := ['*', '?', '[', '(', '\x7b', '\\']

theorem isLiteral_of_not_special {name : Text} (plain : ∀ c ∈ name, c ∉ special) :
    IsLiteral name := by
  have without (c : Char) (listed : c ∈ special) : c ∉ name := fun member => plain c member listed
  have no_star := without '*' (by decide)
  have no_escape := without '\\' (by decide)
  have no_class := without '[' (by decide)
  have unmarked {c : Char} (listed : c ∈ special) (m : Mark) (marked : m ∈ marks name) : m.1 ≠ c :=
    fun same => without c listed (same ▸ (mem_of_mem_marks no_escape marked).1)
  have no_group := opening_not_mem_signs (unmarked (by decide)) (unmarked (by decide))
  have whole : pieces name = name.map pieceOf :=
    (assemble_of_no_opening no_group).trans (by simpa using plainly_signs_marks no_class no_escape)
  have all_plain := all_isPlain_iff.mpr ⟨no_star, without '?' (by decide)⟩
  rw [IsLiteral, Segment.ofText, whole, if_neg (by rintro rfl; exact no_star (by decide)),
    if_pos all_plain, filterMap_plain? no_star (without '?' (by decide))]

-- A text read as it stands: it has no alternatives, and each of its names stands for itself.
structure Literal (t : Text) : Prop where
  whole : expand t = [t]
  names : ∀ name ∈ t.splitOn '/', IsLiteral name

-- No alternative of the pattern has a name that stands for two dots.
def Level (pattern : Text) : Prop :=
  ∀ e ∈ expandWith pattern.length pattern, ∀ name ∈ e.splitOn '/',
    Segment.ofText name ≠ .name ['.', '.']

theorem Literal.ne_nil {t : Text} (literal : Literal t) : t ≠ [] := by
  rintro rfl
  simpa [expand, expandWith] using literal.whole

end DocHarvest.Glob
