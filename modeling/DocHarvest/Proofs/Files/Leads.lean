import DocHarvest.Files.Tree
import DocHarvest.Proofs.Files.Names

set_option autoImplicit false

namespace DocHarvest

abbrev Turns (name : Text) : Prop := name = [] ∨ name = ['.'] ∨ name = ['.', '.']

theorem IsName.not_turns {name : Text} (isName : IsName name) : ¬ Turns name := by
  rintro (rfl | rfl | rfl)
  · exact isName.ne_nil rfl
  · exact isName.ne_dot rfl
  · exact isName.ne_dots rfl

theorem isName_of_not_turns {name : Text} (straight : ¬ Turns name) (no_slash : '/' ∉ name) :
    IsName name := by
  simp only [Turns, not_or] at straight
  exact ⟨straight.1, straight.2.1, straight.2.2, no_slash⟩

theorem Turns.no_slash {name : Text} (turns : Turns name) : '/' ∉ name := by
  rcases turns with rfl | rfl | rfl <;> decide

namespace FileTree

/-- The tree as it is on a disk: all names are names, and every entry stands in a folder. -/
structure Sound (tree : FileTree) : Prop where
  proper {p : Path} {e : Entry} : tree.get? p = some e → p.Proper
  stands {p : Path} {e : Entry} : tree.get? p = some e → tree.get? p.parent = some .folder

@[simp] theorem get?_root (tree : FileTree) : tree.get? .root = some .folder := rfl

theorem mem_of_get? {tree : FileTree} {p : Path} {e : Entry} (found : tree.get? p = some e)
    (below : p ≠ .root) : (p, e) ∈ tree.entries := by
  rw [get?, if_neg below] at found
  obtain ⟨_, _, entries, _⟩ := List.lookup_eq_some_iff.mp found
  simp [entries]

theorem get?_isSome_of_mem {tree : FileTree} {p : Path} {e : Entry}
    (member : (p, e) ∈ tree.entries) : ∃ f, tree.get? p = some f := by
  by_cases top : p = .root
  · exact ⟨.folder, by simp [top]⟩
  · rw [get?, if_neg top, ← Option.isSome_iff_exists, List.lookup_isSome_iff]
    exact ⟨_, member, by simp⟩

theorem sound_of_entries {tree : FileTree} (entries : ∀ entry ∈ tree.entries,
    entry.1.Proper ∧ tree.get? entry.1.parent = some .folder) : tree.Sound where
  proper {p e} found := by
    by_cases top : p = .root
    · subst top
      intro name member
      cases member
    · exact (entries _ (mem_of_get? found top)).1
  stands {p e} found := by
    by_cases top : p = .root
    · subst top
      rfl
    · exact (entries _ (mem_of_get? found top)).2

def linkStart (place : Path) (target : Text) : Path :=
  if target.head? = some '/' then .root else place

inductive Leads (tree : FileTree) : Nat → Path → List Text → Path → Option Entry → Prop where
  | arrived {links : Nat} {place : Path} : Leads tree links place [] place (tree.get? place)
  | turn {links : Nat} {place q : Path} {name : Text} {rest : List Text} {e : Option Entry} :
      Turns name → Leads tree links (place.step name) rest q e →
      Leads tree links place (name :: rest) q e
  | free {links : Nat} {place : Path} {name : Text} : ¬ Turns name →
      tree.get? (place.child name) = none → Leads tree links place [name] (place.child name) none
  | folder {links : Nat} {place q : Path} {name : Text} {rest : List Text} {e : Option Entry} :
      ¬ Turns name → tree.get? (place.child name) = some .folder →
      Leads tree links (place.child name) rest q e → Leads tree links place (name :: rest) q e
  | file {links : Nat} {place : Path} {name : Text} {t : Option Text} : ¬ Turns name →
      tree.get? (place.child name) = some (.file t) →
      Leads tree links place [name] (place.child name) (some (.file t))
  | link {links : Nat} {place q : Path} {name target : Text} {rest : List Text}
      {e : Option Entry} : ¬ Turns name → tree.get? (place.child name) = some (.link target) →
      Leads tree links (linkStart place target) (target.splitOn '/' ++ rest) q e →
      Leads tree (links + 1) place (name :: rest) q e

variable {tree : FileTree} {links : Nat} {place q : Path} {names : List Text} {e : Option Entry}

theorem leads_of_locate (found : tree.locate links place names = .ok (q, e)) :
    Leads tree links place names q e := by
  fun_induction locate tree links place names with
  | case1 links place =>
    cases found
    exact .arrived
  | case2 links place name rest turns ih => exact .turn turns (ih found)
  | case3 links place name straight here vacant =>
    obtain ⟨rfl, rfl⟩ : here = q ∧ none = e := by simpa using found
    exact .free straight vacant
  | case4 => cases found
  | case5 links place name rest straight here folder ih => exact .folder straight folder (ih found)
  | case6 links place name straight here t file =>
    obtain ⟨rfl, rfl⟩ : here = q ∧ some (.file t) = e := by simpa using found
    exact .file straight file
  | case7 => cases found
  | case8 => cases found
  | case9 place name rest straight here target link fewer start ih =>
    exact .link straight link (ih found)

theorem Leads.locate (leads : Leads tree links place names q e) :
    tree.locate links place names = .ok (q, e) := by
  induction leads with
  | arrived => rw [FileTree.locate]
  | turn turns _ ih => rw [FileTree.locate, if_pos turns, ih]
  | free straight vacant =>
    rw [FileTree.locate, if_neg straight]
    simp [vacant]
  | folder straight folder _ ih =>
    rw [FileTree.locate, if_neg straight]
    simp [folder, ih]
  | file straight file =>
    rw [FileTree.locate, if_neg straight]
    simp [file]
  | link straight link _ ih =>
    rw [FileTree.locate, if_neg straight]
    simp only [link]
    exact ih

theorem locate_eq_ok_iff :
    tree.locate links place names = .ok (q, e) ↔ Leads tree links place names q e :=
  ⟨leads_of_locate, Leads.locate⟩

theorem Leads.entry (leads : Leads tree links place names q e) : e = tree.get? q := by
  induction leads with
  | arrived => rfl
  | turn _ _ ih => exact ih
  | free _ vacant => exact vacant.symm
  | folder _ _ _ ih => exact ih
  | file _ file => exact file.symm
  | link _ _ _ ih => exact ih

theorem linkStart_folder (folder : tree.get? place = some .folder) (target : Text) :
    tree.get? (linkStart place target) = some .folder := by
  unfold linkStart
  split
  · rfl
  · exact folder

section Sound

variable (sound : tree.Sound)

include sound

theorem Sound.step_folder {name : Text} (folder : tree.get? place = some .folder)
    (turns : Turns name) : tree.get? (place.step name) = some .folder := by
  rcases turns with rfl | rfl | rfl
  · exact folder
  · exact folder
  · exact sound.stands folder

theorem Sound.isName_of_child {name : Text} {f : Entry}
    (found : tree.get? (place.child name) = some f) : IsName name :=
  sound.proper found name (by simp [Path.child])

-- A place that is found, taken or free, stands in a folder.
theorem Leads.stands (leads : Leads tree links place names q e)
    (folder : tree.get? place = some .folder) (no_slash : ∀ name ∈ names, '/' ∉ name) :
    q.Proper ∧ tree.get? q.parent = some .folder := by
  induction leads with
  | arrived => exact ⟨sound.proper folder, sound.stands folder⟩
  | turn turns _ ih =>
    exact ih (sound.step_folder folder turns) fun name member => no_slash name (by simp [member])
  | @free links place name straight _ =>
    refine ⟨?_, by simpa using folder⟩
    intro other member
    rcases List.mem_append.mp member with above | last
    · exact sound.proper folder other above
    · obtain rfl : other = name := by simpa using last
      exact isName_of_not_turns straight (no_slash other (by simp))
  | folder _ here _ ih => exact ih here fun name member => no_slash name (by simp [member])
  | file _ here => exact ⟨sound.proper here, by simpa using folder⟩
  | @link links place q name target rest e _ _ _ ih =>
    apply ih (linkStart_folder folder target)
    intro part member
    rcases List.mem_append.mp member with within | later
    · exact Path.no_slash_of_mem_splitOn within
    · exact no_slash part (by simp [later])

theorem Leads.not_link (leads : Leads tree links place names q e)
    (folder : tree.get? place = some .folder) (target : Text) : e ≠ some (.link target) := by
  induction leads with
  | arrived => simp [folder]
  | turn turns _ ih => exact ih (sound.step_folder folder turns)
  | free => simp
  | folder _ here _ ih => exact ih here
  | file => simp
  | link _ _ _ ih => exact ih (linkStart_folder folder _)

theorem Leads.no_slash (leads : Leads tree links place names q e) (taken : e ≠ none) :
    ∀ name ∈ names, '/' ∉ name := by
  induction leads with
  | arrived => simp
  | turn turns _ ih => exact List.forall_mem_cons.mpr ⟨turns.no_slash, ih taken⟩
  | free => exact absurd rfl taken
  | folder _ here _ ih =>
    exact List.forall_mem_cons.mpr ⟨(sound.isName_of_child here).no_slash, ih taken⟩
  | file _ here => exact List.forall_mem_singleton.mpr (sound.isName_of_child here).no_slash
  | link _ here _ ih =>
    refine List.forall_mem_cons.mpr ⟨(sound.isName_of_child here).no_slash, ?_⟩
    exact (List.forall_mem_append.mp (ih taken)).2

-- A way can be left only at a folder.
theorem Leads.split {as bs : List Text} (more : bs ≠ [])
    (leads : Leads tree links place (as ++ bs) q e) (folder : tree.get? place = some .folder) :
    ∃ f left, Leads tree links place as f (some .folder) ∧ Leads tree left f bs q e := by
  generalize whole : as ++ bs = names at leads
  induction leads generalizing as with
  | arrived => simp_all
  | @turn links place q name rest e turns later ih =>
    cases as with
    | nil =>
      obtain rfl : bs = name :: rest := whole
      exact ⟨place, links, folder ▸ .arrived, .turn turns later⟩
    | cons a as =>
      obtain ⟨rfl, rfl⟩ : a = name ∧ as ++ bs = rest := by simpa using whole
      obtain ⟨f, left, first, second⟩ := ih (sound.step_folder folder turns) rfl
      exact ⟨f, left, .turn turns first, second⟩
  | @free links place name straight vacant =>
    cases as with
    | nil =>
      obtain rfl : bs = [name] := whole
      exact ⟨place, links, folder ▸ .arrived, .free straight vacant⟩
    | cons a as => simp_all
  | @folder links place q name rest e straight here later ih =>
    cases as with
    | nil =>
      obtain rfl : bs = name :: rest := whole
      exact ⟨place, links, folder ▸ .arrived, .folder straight here later⟩
    | cons a as =>
      obtain ⟨rfl, rfl⟩ : a = name ∧ as ++ bs = rest := by simpa using whole
      obtain ⟨f, left, first, second⟩ := ih here rfl
      exact ⟨f, left, .folder straight here first, second⟩
  | @file links place name t straight here =>
    cases as with
    | nil =>
      obtain rfl : bs = [name] := whole
      exact ⟨place, links, folder ▸ .arrived, .file straight here⟩
    | cons a as => simp_all
  | @link links place q name target rest e straight here later ih =>
    cases as with
    | nil =>
      obtain rfl : bs = name :: rest := whole
      exact ⟨place, links + 1, folder ▸ .arrived, .link straight here later⟩
    | cons a as =>
      obtain ⟨rfl, rfl⟩ : a = name ∧ as ++ bs = rest := by simpa using whole
      obtain ⟨f, left, first, second⟩ := ih (linkStart_folder folder target)
        (List.append_assoc _ _ _)
      exact ⟨f, left, .link straight here first, second⟩

end Sound

theorem Leads.unique (leads : Leads tree links place names q e) {q' : Path} {e' : Option Entry}
    (other : Leads tree links place names q' e') : q = q' ∧ e = e' := by
  simpa [leads.locate] using other.locate

theorem Leads.names_eq (no_link : ∀ p target, tree.get? p ≠ some (.link target))
    (straight : ∀ name ∈ names, ¬ Turns name) (leads : Leads tree links place names q e) :
    q.names = place.names ++ names := by
  induction leads with
  | arrived => simp
  | turn turns _ _ => exact absurd turns (straight _ (by simp))
  | free => rfl
  | folder _ _ _ ih =>
    have rest := ih fun name member => straight name (by simp [member])
    simpa [Path.child] using rest
  | file => rfl
  | link _ here _ _ => exact absurd here (no_link _ _)

end FileTree

end DocHarvest
