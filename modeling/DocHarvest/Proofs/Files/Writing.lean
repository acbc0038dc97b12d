import DocHarvest.Proofs.Files.Leads

set_option autoImplicit false

namespace DocHarvest

namespace FileTree

-- Folders and links are those of the tree before, and there is no new link.
structure Keeps (before after : FileTree) : Prop where
  folder {p : Path} : before.get? p = some .folder → after.get? p = some .folder
  link {p : Path} {target : Text} :
    after.get? p = some (.link target) ↔ before.get? p = some (.link target)

theorem Keeps.refl (tree : FileTree) : Keeps tree tree := ⟨id, Iff.rfl⟩

theorem Keeps.trans {first second third : FileTree} (one : Keeps first second)
    (two : Keeps second third) : Keeps first third :=
  ⟨fun folder => two.folder (one.folder folder), two.link.trans one.link⟩

theorem leads_last {tree : FileTree} {links : Nat} {place : Path} {name : Text}
    (straight : ¬ Turns name)
    (no_link : ∀ target, tree.get? (place.child name) ≠ some (.link target)) :
    Leads tree links place [name] (place.child name) (tree.get? (place.child name)) := by
  match here : tree.get? (place.child name) with
  | none => exact .free straight here
  | some .folder => exact here ▸ .folder straight here .arrived
  | some (.file t) => exact .file straight here
  | some (.link target) => exact absurd here (no_link target)

theorem Keeps.leads {before after : FileTree} (keeps : Keeps before after) {links : Nat}
    {place q : Path} {names : List Text} {e : Option Entry}
    (leads : Leads before links place names q e) :
    Leads after links place names q (after.get? q) := by
  induction leads with
  | arrived => exact .arrived
  | turn turns _ ih => exact .turn turns ih
  | free straight vacant =>
    exact leads_last straight fun target now => by simp [keeps.link.mp now] at vacant
  | folder straight here _ ih => exact .folder straight (keeps.folder here) ih
  | file straight here =>
    exact leads_last straight fun target now => by simp [keeps.link.mp now] at here
  | link straight here _ ih => exact .link straight (keeps.link.mpr here) ih

structure Open (tree : FileTree) (p : Path) : Prop where
  proper : p.Proper
  stands : tree.get? p.parent = some .folder
  no_folder : tree.get? p ≠ some .folder
  no_link : ∀ target, tree.get? p ≠ some (.link target)

section Put

variable {tree : FileTree} {p : Path} {e : Entry}

theorem Open.ne_root (room : Open tree p) : p ≠ .root := by
  rintro rfl
  exact room.no_folder rfl

theorem Open.keeps (room : Open tree p) (solid : ∀ target, e ≠ .link target) :
    Keeps tree (tree.put p e) where
  folder {q} folder := by
    rw [get?_put tree room.ne_root, if_neg, folder]
    rintro rfl
    exact room.no_folder folder
  link {q target} := by
    rw [get?_put tree room.ne_root]
    split
    · next same =>
      subst same
      simp [solid target, room.no_link target]
    · rfl

theorem Open.sound (room : Open tree p) (sound : tree.Sound) : (tree.put p e).Sound where
  proper {q f} found := by
    rw [get?_put tree room.ne_root] at found
    split at found
    · next same => exact same ▸ room.proper
    · exact sound.proper found
  stands {q f} found := by
    have above : p.parent ≠ p := by
      intro same
      have names := congrArg (fun p : Path => p.names.length) same
      have top : p.names ≠ [] := fun nothing => room.ne_root (by cases p; simp_all [Path.root])
      have some_name := List.length_pos_iff.mpr top
      simp only [Path.parent, List.length_dropLast] at names
      omega
    rw [get?_put tree room.ne_root] at found ⊢
    split at found
    · next same =>
      subst same
      rw [if_neg above]
      exact room.stands
    · have folder := sound.stands found
      rw [if_neg, folder]
      rintro same
      exact room.no_folder (same ▸ folder)

end Put

variable {tree tree' : FileTree}

theorem find_eq_ok_iff {p q : Path} {e : Option Entry} :
    tree.find p = .ok (q, e) ↔ Leads tree linkLimit .root p.names q e :=
  locate_eq_ok_iff

-- Where nothing stands, a path that leads somewhere leads to a free place in a folder.
theorem open_of_entry?_eq_none (sound : tree.Sound) {above place : Path} {name : Text}
    {e : Option Entry} (isName : IsName name) (vacant : tree.entry? (above.child name) = none)
    (found : tree.find (above.child name) = .ok (place, e)) : Open tree place ∧ e = none := by
  obtain ⟨f, left, first, last⟩ := (find_eq_ok_iff.mp found).split sound (by simp) (get?_root tree)
  have here : tree.get? (f.child name) = none := by
    have folder : tree.find above = .ok (f, some .folder) := find_eq_ok_iff.mpr first
    simpa [ entry?, Path.child_names, folder] using vacant
  have folder : tree.get? f = some .folder := first.entry.symm
  cases last with
  | turn turns _ => exact absurd turns isName.not_turns
  | folder _ taken _ => simp [here] at taken
  | file _ taken => simp [here] at taken
  | link _ taken _ => simp [here] at taken
  | free _ _ =>
    refine ⟨⟨?_, by simpa using folder, by simp [here], by simp [here]⟩, rfl⟩
    have above_proper := sound.proper folder
    rw [← f.step_of_isName isName]
    exact above_proper.step isName.no_slash

def SameFiles (tree tree' : FileTree) : Prop :=
  ∀ p t, tree.get? p = some (.file t) → tree'.get? p = some (.file t)

theorem makeFolders_keeps (sound : tree.Sound) {above : Path} {names : List Text}
    (named : ∀ name ∈ names, IsName name) (made : tree.makeFolders above names = .ok tree') :
    tree'.Sound ∧ Keeps tree tree' ∧ SameFiles tree tree' := by
  induction names generalizing tree above with
  | nil =>
    cases made
    exact ⟨sound, .refl _, fun _ _ file => file⟩
  | cons name rest ih =>
    have later := fun other member => named other (List.mem_cons_of_mem name member)
    unfold makeFolders at made
    dsimp only at made
    split at made
    · next place e vacant found =>
      obtain ⟨room, rfl⟩ := open_of_entry?_eq_none sound (named name (by simp)) vacant found
      have free : tree.get? place = none := (find_eq_ok_iff.mp found).entry.symm
      obtain ⟨sound', keeps, files⟩ := ih (room.sound sound) later made
      refine ⟨sound', (room.keeps (by simp)).trans keeps, ?_⟩
      intro p t file
      apply files
      rw [get?_put tree room.ne_root, if_neg, file]
      rintro rfl
      simp [free] at file
    · exact ih sound later made
    all_goals cases made

/-- A write that goes through is read where it was written, and leaves all else as it was. -/
theorem write_leads (sound : tree.Sound) {p : Path} (proper : p.Proper) {t : Text}
    (written : tree.write p t = .ok tree') :
    tree'.Sound ∧ Keeps tree tree' ∧ ∃ place, tree'.find p = .ok (place, some (.file (some t))) ∧
      ∀ q u, q ≠ place → tree.get? q = some (.file u) → tree'.get? q = some (.file u) := by
  unfold write at written
  split at written
  · cases written
  · next middle made =>
    have names : ∀ name ∈ p.parent.names, IsName name := fun name member =>
      proper name (List.dropLast_subset _ member)
    obtain ⟨sound', keeps, files⟩ := makeFolders_keeps sound names made
    split at written
    · cases written
    · cases written
    · next place e no_folder _ found =>
      cases written
      have leads := find_eq_ok_iff.mp found
      have stands := leads.stands sound' (get?_root middle) fun name member =>
        (proper name member).no_slash
      have room : Open middle place := by
        refine ⟨stands.1, stands.2, ?_, ?_⟩
        · rw [← leads.entry]
          rintro rfl
          exact no_folder rfl
        · intro target
          rw [← leads.entry]
          exact leads.not_link sound' (get?_root middle) target
      have kept := room.keeps (e := .file (some t)) (by simp)
      refine ⟨room.sound sound', keeps.trans kept, place, ?_, ?_⟩
      · have again := kept.leads leads
        rw [get?_put middle room.ne_root, if_pos rfl] at again
        exact find_eq_ok_iff.mpr again
      · intro q u other file
        rw [get?_put middle room.ne_root, if_neg other]
        exact files q u file
    · cases written

end FileTree

end DocHarvest
