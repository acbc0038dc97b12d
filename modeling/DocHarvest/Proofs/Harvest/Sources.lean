import DocHarvest.Harvest
import DocHarvest.Proofs.Files.Leads

set_option autoImplicit false

namespace DocHarvest

namespace Path

def Straight (p : Path) : Prop := ∀ name ∈ p.names, ¬ Turns name

theorem Proper.straight {p : Path} (proper : p.Proper) : p.Straight :=
  fun name member => (proper name member).not_turns

theorem Straight.child {p : Path} (straight : p.Straight) {name : Text} (on : ¬ Turns name) :
    (p.child name).Straight :=
  List.forall_mem_append.mpr ⟨straight, List.forall_mem_singleton.mpr on⟩

theorem Straight.step {p : Path} (straight : p.Straight) (name : Text) :
    (p.step name).Straight := by
  unfold Path.step
  split
  · exact straight
  · next shown =>
    split
    · exact fun other member => straight other (List.dropLast_subset _ member)
    · next down =>
      apply straight.child
      rintro (rfl | rfl | rfl) <;> simp_all

end Path

namespace Glob

variable {tree : FileTree}

theorem eq_of_mem_keepFile {p q : Path} {e : Option Entry} (member : q ∈ keepFile p e) : q = p := by
  unfold keepFile at member
  split at member <;> simp_all

theorem isName_of_mem_children (sound : tree.Sound) {p : Path} {name : Text} {e : Entry}
    (member : (name, e) ∈ tree.children p) : IsName name := by
  unfold FileTree.children at member
  split at member
  · cases member
  · obtain ⟨⟨q, f⟩, listed, shown⟩ := List.mem_filterMap.mp member
    obtain ⟨_, found⟩ := FileTree.get?_isSome_of_mem listed
    dsimp only at shown
    split at shown
    · next last ends =>
      obtain ⟨_, rfl, _⟩ : _ ∧ last = name ∧ _ := by simpa using shown
      exact sound.proper found last (List.mem_of_getLast? ends)
    · cases shown

theorem names_of_mem_reached (sound : tree.Sound) {p q : Path} (member : q ∈ reached tree p) :
    ∃ names, (∀ name ∈ names, IsName name) ∧ q.names = p.names ++ names := by
  unfold reached at member
  split at member
  · rcases List.mem_cons.mp member with rfl | below
    · exact ⟨[], by simp, by simp⟩
    · obtain ⟨names, kept, rfl⟩ := List.mem_map.mp below
      have listed := List.mem_of_mem_filter kept
      unfold FileTree.foldersBelow at listed
      split at listed
      · cases listed
      · next folder _ =>
        obtain ⟨⟨r, e⟩, entry, shown⟩ := List.mem_filterMap.mp listed
        obtain ⟨_, found⟩ := FileTree.get?_isSome_of_mem entry
        obtain ⟨_, cut, _⟩ : _ ∧ folder.names.isPrefixOf? r.names = some names ∧ _ := by
          simpa [Option.filter_eq_some_iff] using shown
        have whole : folder.names ++ names = r.names :=
          List.isPrefixOf?_eq_some_iff_append_eq.mp cut
        have named : ∀ name ∈ names, IsName name := fun name inside =>
          sound.proper found name (by simp [← whole, inside])
        exact ⟨names, named, by rw [p.walk_of_names named]⟩
  · cases member

theorem straight_of_mem_reached (sound : tree.Sound) {p q : Path} (straight : p.Straight)
    (member : q ∈ reached tree p) : q.Straight := by
  obtain ⟨names, named, split⟩ := names_of_mem_reached sound member
  rw [Path.Straight, split]
  exact List.forall_mem_append.mpr ⟨straight, fun name inside => (named name inside).not_turns⟩

theorem straight_of_mem_linksIn (sound : tree.Sound) {p q : Path} (straight : p.Straight)
    (member : q ∈ linksIn tree p) : q.Straight := by
  obtain ⟨⟨name, e⟩, listed, shown⟩ := List.mem_filterMap.mp member
  have isName := isName_of_mem_children sound listed
  dsimp only at shown
  split at shown
  · split at shown
    · cases shown
    · cases shown
      exact straight.child isName.not_turns
  · cases shown

theorem straight_of_mem_follow (sound : tree.Sound) {first : Bool} {p q : Path}
    {segments : List Segment} (straight : p.Straight) (found : q ∈ follow tree first p segments) :
    q.Straight := by
  fun_induction follow tree first p segments with
  | case1 => cases found
  | case2 => cases found
  | case3 first p n on =>
    obtain rfl := eq_of_mem_keepFile found
    exact straight.child on
  | case4 first p n rest _ ih => exact ih (straight.step n) found
  | case5 first p ps =>
    obtain ⟨⟨name, e⟩, listed, kept⟩ := List.mem_flatMap.mp found
    have isName := isName_of_mem_children sound listed
    dsimp only at kept
    split at kept
    · obtain rfl := eq_of_mem_keepFile kept
      exact straight.child isName.not_turns
    · cases kept
  | case6 first p ps rest _ ih =>
    obtain ⟨⟨name, e⟩, listed, kept⟩ := List.mem_flatMap.mp found
    have isName := isName_of_mem_children sound listed
    dsimp only at kept
    split at kept
    · cases kept
    · split at kept
      · exact ih name (straight.child isName.not_turns) kept
      · cases kept
  | case7 first p =>
    rcases List.mem_append.mp found with here | below
    · obtain rfl := eq_of_mem_keepFile here
      exact straight
    · obtain ⟨r, reached, inside⟩ := List.mem_flatMap.mp below
      obtain ⟨⟨name, e⟩, listed, kept⟩ := List.mem_flatMap.mp inside
      have isName := isName_of_mem_children sound listed
      dsimp only at kept
      split at kept
      · cases kept
      · obtain rfl := eq_of_mem_keepFile kept
        exact (straight_of_mem_reached sound straight reached).child isName.not_turns
  | case8 first p rest _ ih =>
    obtain ⟨r, reached, inside⟩ := List.mem_flatMap.mp found
    have below := straight_of_mem_reached sound straight reached
    rcases List.mem_append.mp inside with here | linked
    · exact ih r below here
    · split at linked
      · cases linked
      · obtain ⟨link, listed, kept⟩ := List.mem_flatMap.mp linked
        exact ih link (straight_of_mem_linksIn sound below listed) kept

theorem straight_of_mem_search (sound : tree.Sound) {base q : Path} (straight : base.Straight)
    {pattern : Text} (found : q ∈ search tree base pattern) : q.Straight := by
  simp only [search, List.mem_mergeSort, List.mem_eraseDups, List.mem_flatMap] at found
  obtain ⟨t, _, found⟩ := found
  split at found
  · apply straight_of_mem_follow sound _ found
    intro name member
    cases member
  · exact straight_of_mem_follow sound straight found

theorem nodup_eraseDups (ps : List Path) : ps.eraseDups.Nodup := by
  induction count : ps.length using Nat.strong_induction_on generalizing ps with
  | _ n ih =>
    cases ps with
    | nil => simp
    | cons p ps =>
      have shorter := List.length_filter_le (fun q => !q == p) ps
      rw [List.length_cons] at count
      rw [List.eraseDups_cons, List.nodup_cons]
      exact ⟨by simp [List.mem_eraseDups], ih _ (by omega) _ rfl⟩

theorem nodup_search (tree : FileTree) (base : Path) (pattern : Text) :
    (search tree base pattern).Nodup :=
  (List.mergeSort_perm _ _).nodup_iff.mpr (nodup_eraseDups _)

end Glob

def documentOf (tree : FileTree) (base : Path) (config : Config) (input : Text) : Document :=
  .ofReadings ((sourceFiles tree base input config.pattern).map (Reading.ofPath tree base config))

section Entries

variable {tree : FileTree} {base : Path} {config : Config} {input : Text}

theorem straight_of_mem_sourceFiles (sound : tree.Sound) (here : base.Proper) {p : Path}
    {pattern : Text} (found : p ∈ sourceFiles tree base input pattern) : p.Straight :=
  Glob.straight_of_mem_search sound here.straight found

theorem find_of_read {p : Path} {t : Text} (read : tree.read p = .ok t) :
    ∃ place, tree.find p = .ok (place, some (.file (some t))) := by
  unfold FileTree.read at read
  split at read
  · next place u found =>
    cases read
    exact ⟨place, found⟩
  all_goals cases read

-- What can be read is there, so its names are names of the tree.
theorem proper_of_read (sound : tree.Sound) {p : Path} (straight : p.Straight) {t : Text}
    (read : tree.read p = .ok t) : p.Proper := by
  obtain ⟨place, found⟩ := find_of_read read
  have no_slash := (FileTree.leads_of_locate found).no_slash sound (by simp)
  exact fun name member => isName_of_not_turns (straight name member) (no_slash name member)

theorem records?_ofPath {p : Path} {e : FileRecords}
    (entry : (Reading.ofPath tree base config p).records? = some e) :
    e.file = base.relativeTo p ∧ ∃ t, tree.read p = .ok t := by
  unfold Reading.records? Reading.ofPath at entry
  cases read : tree.read p with
  | ok t =>
    rw [read] at entry
    cases entry
    exact ⟨rfl, t, rfl⟩
  | error fault =>
    rw [read] at entry
    cases entry

theorem exists_source (sound : tree.Sound) (here : base.Proper) {e : FileRecords}
    (member : e ∈ (documentOf tree base config input).files) :
    ∃ p ∈ sourceFiles tree base input config.pattern, p.Proper ∧ (∃ t, tree.read p = .ok t) ∧
      e.file = base.relativeTo p := by
  obtain ⟨r, listed, entry⟩ := List.mem_filterMap.mp member
  obtain ⟨p, found, rfl⟩ := List.mem_map.mp listed
  obtain ⟨file, t, read⟩ := records?_ofPath entry
  have straight := straight_of_mem_sourceFiles sound here found
  exact ⟨p, found, proper_of_read sound straight read, ⟨t, read⟩, file⟩

theorem documentOf_files_distinct (sound : tree.Sound) (here : base.Proper) :
    (documentOf tree base config input).files.Pairwise fun e f => e.file ≠ f.file := by
  have found : (sourceFiles tree base input config.pattern).Nodup := Glob.nodup_search _ _ _
  change (List.filterMap _ (List.map _ _)).Pairwise _
  rw [List.filterMap_map, List.pairwise_filterMap]
  apply found.imp_of_mem
  intro p q first second differ e entry f other same
  obtain ⟨file, t, read⟩ := records?_ofPath entry
  obtain ⟨file', t', read'⟩ := records?_ofPath other
  have proper := proper_of_read sound (straight_of_mem_sourceFiles sound here first) read
  have proper' := proper_of_read sound (straight_of_mem_sourceFiles sound here second) read'
  rw [file, file'] at same
  exact differ (Path.relativeTo_injective proper proper' same)

end Entries

end DocHarvest
