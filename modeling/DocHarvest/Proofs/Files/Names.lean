import DocHarvest.Files.Path
import DocHarvest.Proofs.Signature.Shape
import Mathlib.Data.List.DropRight
import Mathlib.Data.List.TakeDrop

set_option autoImplicit false

namespace DocHarvest

structure IsName (name : Text) : Prop where
  ne_nil : name ≠ []
  ne_dot : name ≠ ['.']
  ne_dots : name ≠ ['.', '.']
  no_slash : '/' ∉ name

instance : DecidablePred IsName := fun name =>
  decidable_of_iff (name ≠ [] ∧ name ≠ ['.'] ∧ name ≠ ['.', '.'] ∧ '/' ∉ name)
    ⟨fun ⟨filled, dot, dots, slash⟩ => ⟨filled, dot, dots, slash⟩,
      fun isName => ⟨isName.ne_nil, isName.ne_dot, isName.ne_dots, isName.no_slash⟩⟩

namespace Path

def Proper (p : Path) : Prop := ∀ name ∈ p.names, IsName name

instance : DecidablePred Proper := fun p =>
  inferInstanceAs (Decidable (∀ name ∈ p.names, IsName name))

theorem step_of_isName (p : Path) {name : Text} (isName : IsName name) :
    p.step name = p.child name := by
  simp [step, isName.ne_nil, isName.ne_dot, isName.ne_dots]

theorem walk_cons (p : Path) (name : Text) (rest : List Text) :
    p.walk (name :: rest) = (p.step name).walk rest := rfl

theorem walk_of_names (p : Path) {names : List Text} (named : ∀ name ∈ names, IsName name) :
    p.walk names = ⟨p.names ++ names⟩ := by
  induction names generalizing p with
  | nil => simp [walk]
  | cons name rest ih =>
    have first := p.step_of_isName (named name (by simp))
    have later := ih (p.child name) fun other member => named other (by simp [member])
    rw [walk_cons, first, later]
    simp [child]

theorem walk_ups (p : Path) (n : Nat) :
    p.walk (List.replicate n ['.', '.']) = ⟨p.names.rdrop n⟩ := by
  induction n generalizing p with
  | zero => simp [walk]
  | succ n ih =>
    have up : p.step ['.', '.'] = p.parent := by simp [step]
    rw [List.replicate_succ, walk_cons, up, ih p.parent]
    simp [parent, List.rdrop, List.dropLast_eq_take, List.take_take]
    omega

theorem Proper.step {p : Path} (proper : p.Proper) {name : Text} (no_slash : '/' ∉ name) :
    (p.step name).Proper := by
  unfold Path.step
  split
  · exact proper
  · next shown =>
    split
    · exact fun other member => proper other (List.dropLast_subset _ member)
    · next down =>
      intro other member
      rcases List.mem_append.mp member with above | last
      · exact proper other above
      · obtain rfl : other = name := by simpa using last
        push Not at shown
        exact ⟨shown.1, shown.2, down, no_slash⟩

theorem Proper.walk {p : Path} (proper : p.Proper) {names : List Text}
    (no_slash : ∀ name ∈ names, '/' ∉ name) : (p.walk names).Proper := by
  induction names generalizing p with
  | nil => exact proper
  | cons name rest ih =>
    exact ih (proper.step (no_slash name (by simp))) fun other member =>
      no_slash other (by simp [member])

theorem no_slash_of_mem_splitOn {t part : Text} (member : part ∈ t.splitOn '/') : '/' ∉ part :=
  fun inside => (Text.mem_splitOn member inside).2 rfl

theorem Proper.resolve {base : Path} (proper : base.Proper) (t : Text) :
    (base.resolve t).Proper := by
  apply Proper.walk
  · split
    · intro name member
      cases member
    · exact proper
  · exact fun part member => no_slash_of_mem_splitOn member

-- Where two paths part: what they share, and what is left of either.
structure Fork (base p : Path) (shared up down : List Text) : Prop where
  base : base.names = shared ++ up
  path : p.names = shared ++ down
  apart : ∀ name ∈ up.head?, name ∉ down.head?

theorem dropCommon_fork (as bs : List Text) : ∃ shared,
    Fork ⟨as⟩ ⟨bs⟩ shared (dropCommon as bs).1 (dropCommon as bs).2 := by
  fun_induction dropCommon as bs with
  | case1 as a bs ih =>
    obtain ⟨shared, base, path, apart⟩ := ih
    exact ⟨a :: shared, by simpa using base, by simpa using path, apart⟩
  | case2 a as b bs differ => exact ⟨[], rfl, rfl, by simpa using fun same => differ same.symm⟩
  | case3 as bs short =>
    refine ⟨[], rfl, rfl, ?_⟩
    intro name first second
    cases as with
    | nil => cases first
    | cons a as =>
      cases bs with
      | nil => cases second
      | cons b bs => exact short a as b bs rfl rfl

theorem exists_fork (base p : Path) : ∃ shared up down, Fork base p shared up down ∧
    base.relativeTo p = ['/'].intercalate (List.replicate up.length ['.', '.'] ++ down) := by
  obtain ⟨shared, fork⟩ := dropCommon_fork base.names p.names
  exact ⟨shared, _, _, fork, by simp [relativeTo, List.map_const']⟩

theorem replicate_append_injective {d : Text} {m n : Nat} {as bs : List Text} (left : d ∉ as)
    (right : d ∉ bs) (same : List.replicate m d ++ as = List.replicate n d ++ bs) :
    m = n ∧ as = bs := by
  have count := congrArg (List.count d) same
  rw [List.count_append, List.count_append, List.count_replicate_self, List.count_replicate_self,
    List.count_eq_zero_of_not_mem left, List.count_eq_zero_of_not_mem right] at count
  obtain rfl : m = n := by omega
  exact ⟨rfl, List.append_cancel_left same⟩

theorem Fork.isName_down {base p : Path} {shared up down : List Text}
    (fork : Fork base p shared up down) (proper : p.Proper) : ∀ name ∈ down, IsName name :=
  fun name member => proper name (by simp [fork.path, member])

theorem Fork.parts {base p : Path} {shared up down : List Text} (fork : Fork base p shared up down)
    (proper : p.Proper) :
    ∀ part ∈ List.replicate up.length ['.', '.'] ++ down, part ≠ [] ∧ '/' ∉ part := by
  intro part member
  rcases List.mem_append.mp member with above | below
  · obtain rfl := List.eq_of_mem_replicate above
    decide
  · have isName := fork.isName_down proper part below
    exact ⟨isName.ne_nil, isName.no_slash⟩

theorem relativeTo_injective {base p q : Path} (proper : p.Proper) (other : q.Proper)
    (same : base.relativeTo p = base.relativeTo q) : p = q := by
  obtain ⟨shared, up, down, fork, text⟩ := exists_fork base p
  obtain ⟨shared', up', down', fork', text'⟩ := exists_fork base q
  rw [text, text'] at same
  have ways := Text.intercalate_injective (fork.parts proper) (fork'.parts other) same
  obtain ⟨length, rfl⟩ := replicate_append_injective
    (fun member => (fork.isName_down proper _ member).ne_dots rfl)
    (fun member => (fork'.isName_down other _ member).ne_dots rfl) ways
  have split : shared ++ up = shared' ++ up' := fork.base.symm.trans fork'.base
  obtain ⟨rfl, _⟩ := List.append_inj' split length
  have names : p.names = q.names := fork.path.trans fork'.path.symm
  cases p
  cases q
  simpa using names

theorem withoutExtension_cases (t : Text) :
    (∃ ext, ext ≠ [] ∧ (∀ c ∈ ext, c ≠ '.' ∧ c ≠ '/') ∧ t = withoutExtension t ++ '.' :: ext) ∨
      withoutExtension t = t := by
  unfold withoutExtension
  rw [List.span_eq_takeWhile_dropWhile]
  have whole :=
    List.takeWhile_append_dropWhile (p := fun c => c != '.' && c != '/') (l := t.reverse)
  have plain := List.all_takeWhile (p := fun c => c != '.' && c != '/') (l := t.reverse)
  generalize List.takeWhile (fun c => c != '.' && c != '/') t.reverse = tail at *
  generalize List.dropWhile (fun c => c != '.' && c != '/') t.reverse = front at *
  dsimp only
  split
  · next c tail front =>
    refine .inl ⟨(c :: tail).reverse, by simp, ?_, ?_⟩
    · intro d member
      simpa using List.all_eq_true.mp plain d (List.mem_reverse.mp member)
    · have turned := congrArg List.reverse whole
      simpa using turned.symm
  · exact .inr rfl

theorem withoutExtension_of_ext (front : Text) {ext : Text} (some_ext : ext ≠ [])
    (plain : ∀ c ∈ ext, c ≠ '.' ∧ c ≠ '/') : withoutExtension (front ++ '.' :: ext) = front := by
  have turned : (front ++ '.' :: ext).reverse = ext.reverse ++ '.' :: front.reverse := by simp
  have tail : (ext.reverse ++ '.' :: front.reverse).takeWhile (fun c => c != '.' && c != '/') =
      ext.reverse := by
    rw [List.takeWhile_append_of_pos (by simpa using plain)]
    simp
  have rest : (ext.reverse ++ '.' :: front.reverse).dropWhile (fun c => c != '.' && c != '/') =
      '.' :: front.reverse := by
    rw [List.dropWhile_append_of_pos (by simpa using plain)]
    simp
  obtain ⟨c, more, shape⟩ := List.exists_cons_of_ne_nil (List.reverse_ne_nil_iff.mpr some_ext)
  rw [withoutExtension, turned, List.span_eq_takeWhile_dropWhile, tail, rest, shape]
  simp

theorem withoutExtension_append (folder name : Text) :
    withoutExtension (folder ++ '/' :: name) = folder ++ '/' :: withoutExtension name := by
  rcases withoutExtension_cases name with ⟨ext, some_ext, plain, split⟩ | kept
  · have whole : folder ++ '/' :: name =
        (folder ++ '/' :: withoutExtension name) ++ '.' :: ext := by
      simp [← split]
    rw [whole, withoutExtension_of_ext _ some_ext plain]
  · rw [kept]
    rcases withoutExtension_cases (folder ++ '/' :: name) with ⟨ext, some_ext, plain, split⟩ | same
    · -- The extension of the whole would be one of the name, since it holds no slash.
      exfalso
      rcases List.append_eq_append_iff.mp split with ⟨u, _, found⟩ | ⟨u, _, found⟩
      · cases u with
        | nil => simp at found
        | cons c u =>
          obtain ⟨rfl, rfl⟩ : '/' = c ∧ name = u ++ '.' :: ext := by simpa using found
          rw [withoutExtension_of_ext u some_ext plain] at kept
          simpa using congrArg List.length kept
      · have slash : '/' ∈ '.' :: ext := by simp [found]
        rcases List.mem_cons.mp slash with first | later
        · simp at first
        · exact (plain '/' later).2 rfl
    · exact same

theorem no_slash_withoutExtension {name : Text} (no_slash : '/' ∉ name) :
    '/' ∉ withoutExtension name := by
  rcases withoutExtension_cases name with ⟨ext, _, _, split⟩ | kept
  · rw [split] at no_slash
    simp only [List.mem_append, not_or] at no_slash
    exact no_slash.1
  · rwa [kept]

end Path

end DocHarvest
