import DocHarvest.Proofs.Harvest.Delivery
import Mathlib

set_option autoImplicit false

namespace DocHarvest

def Path.IsUnder (p folder : Path) : Prop := ∃ rest, rest ≠ [] ∧ p.names = folder.names ++ rest

namespace Path

theorem intercalate_concat {ns : List Text} (some_name : ns ≠ []) (last : Text) :
    ['/'].intercalate (ns ++ [last]) = ['/'].intercalate ns ++ '/' :: last := by
  induction ns with
  | nil => exact absurd rfl some_name
  | cons n ns ih =>
    cases ns with
    | nil => simp [List.intercalate_cons_cons]
    | cons m ns => simpa [List.intercalate_cons_cons] using ih (by simp)

theorem withoutExtension_intercalate (ns : List Text) (last : Text) :
    withoutExtension (['/'].intercalate (ns ++ [last])) =
      ['/'].intercalate (ns ++ [withoutExtension last]) := by
  by_cases none_above : ns = []
  · simp [none_above]
  · rw [intercalate_concat none_above, withoutExtension_append, intercalate_concat none_above]

theorem intercalate_append_last (ns : List Text) (last more : Text) :
    ['/'].intercalate (ns ++ [last]) ++ more = ['/'].intercalate (ns ++ [last ++ more]) := by
  by_cases none_above : ns = []
  · simp [none_above]
  · simp [intercalate_concat none_above]

theorem exists_intercalate (t : Text) : ∃ ns last, (∀ n ∈ ns, '/' ∉ n) ∧ '/' ∉ last ∧
    t = ['/'].intercalate (ns ++ [last]) := by
  have some_part : t.splitOn '/' ≠ [] := List.splitOnP_ne_nil _ _
  have whole := List.dropLast_append_getLast some_part
  refine ⟨(t.splitOn '/').dropLast, _,
    fun n member => no_slash_of_mem_splitOn (List.dropLast_subset _ member),
    no_slash_of_mem_splitOn (List.getLast_mem some_part), ?_⟩
  rw [whole, List.intercalate_splitOn]

def folderNames (t : Text) : List Text := (t.splitOn '/').dropLast

def lastName (t : Text) : Text := (t.splitOn '/').getLastD []

theorem folderNames_intercalate {ns : List Text} {last : Text}
    (no_slash : ∀ n ∈ ns ++ [last], '/' ∉ n) :
    folderNames (['/'].intercalate (ns ++ [last])) = ns := by
  rw [folderNames, List.splitOn_intercalate '/' no_slash (by simp), List.dropLast_concat]

theorem lastName_intercalate {ns : List Text} {last : Text}
    (no_slash : ∀ n ∈ ns ++ [last], '/' ∉ n) :
    lastName (['/'].intercalate (ns ++ [last])) = last := by
  rw [lastName, List.splitOn_intercalate '/' no_slash (by simp)]
  simp

theorem child_inj {p q : Path} {a b : Text} : p.child a = q.child b ↔ p = q ∧ a = b := by
  cases p
  cases q
  simp [child]

end Path

def jsonName (name : Text) : Text := Path.withoutExtension name ++ ".json".toList

theorem isName_jsonName {name : Text} (no_slash : '/' ∉ name) : IsName (jsonName name) := by
  have length : 5 ≤ (jsonName name).length := by simp [jsonName]
  refine ⟨?_, ?_, ?_, ?_⟩
  · intro same
    simp [same] at length
  · intro same
    simp [same] at length
  · intro same
    simp [same] at length
  · simp only [jsonName, List.mem_append, not_or]
    exact ⟨Path.no_slash_withoutExtension no_slash, by decide⟩

theorem targetPath_eq (folder : Path) {t : Text} (relative : t.head? ≠ some '/') :
    targetPath folder t =
      (folder.walk (Path.folderNames t)).child (jsonName (Path.lastName t)) := by
  obtain ⟨ns, last, above, no_slash, rfl⟩ := Path.exists_intercalate t
  have parts : ∀ n ∈ ns ++ [last], '/' ∉ n := by simpa [or_imp, forall_and] using ⟨above, no_slash⟩
  have isName := isName_jsonName no_slash
  have parts' : ∀ n ∈ ns ++ [jsonName last], '/' ∉ n := by
    simpa [or_imp, forall_and] using ⟨above, isName.no_slash⟩
  have text : Path.withoutExtension (['/'].intercalate (ns ++ [last])) ++ ".json".toList =
      ['/'].intercalate (ns ++ [jsonName last]) := by
    rw [Path.withoutExtension_intercalate, Path.intercalate_append_last, jsonName]
  have relative' : (['/'].intercalate (ns ++ [jsonName last])).head? ≠ some '/' := by
    by_cases none_above : ns = []
    · rw [none_above]
      exact fun leading => isName.no_slash (List.mem_of_mem_head? (by simpa using leading))
    · rw [Path.intercalate_concat none_above, List.head?_append] at relative ⊢
      exact relative
  rw [targetPath, text, Path.folderNames_intercalate parts, Path.lastName_intercalate parts,
    Path.resolve, if_neg relative', List.splitOn_intercalate '/' parts' (by simp),
    Path.walk_append]
  exact Path.step_of_isName _ isName

-- Two sources have one target if they lead to one folder under names that differ in the extension.
theorem targetPath_eq_iff (folder : Path) {t u : Text} (relative : t.head? ≠ some '/')
    (relative' : u.head? ≠ some '/') : targetPath folder t = targetPath folder u ↔
      folder.walk (Path.folderNames t) = folder.walk (Path.folderNames u) ∧
        Path.withoutExtension (Path.lastName t) = Path.withoutExtension (Path.lastName u) := by
  rw [targetPath_eq folder relative, targetPath_eq folder relative', Path.child_inj]
  simp [jsonName]

section Fork

variable {base p folder : Path} {shared up within : List Text} {last : Text}

theorem Path.Fork.head?_ne_slash (fork : base.Fork p shared up within) (proper : p.Proper)
    (text : base.relativeTo p =
      ['/'].intercalate (List.replicate up.length ['.', '.'] ++ within)) :
    (base.relativeTo p).head? ≠ some '/' := by
  have parts := fork.parts proper
  rw [text]
  generalize List.replicate up.length ['.', '.'] ++ within = ns at *
  intro leading
  match ns with
  | [] => simp at leading
  | [n] => exact (parts n (by simp)).2 (List.mem_of_mem_head? (by simpa using leading))
  | n :: m :: ns => 
    obtain ⟨filled, no_slash⟩ := parts n (by simp)
    obtain ⟨c, rest, rfl⟩ := List.exists_cons_of_ne_nil filled
    simp [List.intercalate_cons_cons] at leading
    exact no_slash (by simp [leading])

theorem Path.Fork.targetPath_names (fork : base.Fork p shared up (within ++ [last]))
    (proper : p.Proper) (text : base.relativeTo p =
      ['/'].intercalate (List.replicate up.length ['.', '.'] ++ (within ++ [last]))) :
    (targetPath folder (base.relativeTo p)).names =
      folder.names.rdrop up.length ++ within ++ [jsonName last] := by
  have parts : ∀ part ∈ List.replicate up.length ['.', '.'] ++ within ++ [last], '/' ∉ part :=
    fun part member => (fork.parts proper part (by simpa using member)).2
  have named : ∀ name ∈ within, IsName name := fun name member =>
    fork.isName_down proper name (by simp [member])
  rw [targetPath_eq folder (fork.head?_ne_slash proper text), text, ← List.append_assoc,
    Path.folderNames_intercalate parts, Path.lastName_intercalate parts, Path.walk_append,
    Path.walk_ups, Path.walk_of_names _ named]
  rfl

theorem isUnder_iff {path : Path} {above : List Text} (names : path.names = above ++ [last])
    (folder : Path) : path.IsUnder folder ↔ folder.names <+: above := by
  constructor
  · rintro ⟨rest, some_rest, split⟩
    rw [names, ← List.dropLast_append_getLast some_rest, ← List.append_assoc] at split
    exact ⟨rest.dropLast, (List.append_inj_left' split rfl).symm⟩
  · rintro ⟨rest, rfl⟩
    exact ⟨rest ++ [last], by simp, by simp [names]⟩

theorem prefix_rdrop_append_iff {names more : List Text} {n : Nat} :
    names <+: names.rdrop n ++ more ↔ names.rtake n <+: more := by
  have whole : names.rdrop n ++ names.rtake n = names := List.take_append_drop _ _
  nth_rewrite 1 [← whole]
  exact List.prefix_append_right_inj _

theorem Path.Fork.up_eq_nil (fork : base.Fork p shared up within) (below : base.names <+: p.names) :
    up = [] := by
  rw [fork.base, fork.path, List.prefix_append_right_inj] at below
  obtain ⟨rest, split⟩ := below
  cases up with
  | nil => rfl
  | cons name up => exact absurd (by simp [← split]) (fork.apart name (by simp))

end Fork

section Run

variable {tree : FileTree} {base : Path} {env : Environment} {r : Request} {config : Config}

-- A file is not on the way to a folder.
theorem not_prefix_of_read (sound : tree.Sound) (standing : tree.isFolder base = true) {p : Path}
    {t : Text} (read : tree.read p = .ok t) : ¬ p.names <+: base.names := by
  rintro ⟨up, whole⟩
  obtain ⟨place, found⟩ := find_of_read read
  have leads := FileTree.find_eq_ok_iff.mp found
  obtain ⟨q, folder⟩ : ∃ q, tree.find base = .ok (q, some .folder) := by
    unfold FileTree.isFolder FileTree.target? at standing
    split at standing <;> simp_all
  have to_base := FileTree.find_eq_ok_iff.mp folder
  rw [← whole] at to_base
  by_cases same : up = []
  · rw [same, List.append_nil] at to_base
    simpa using (leads.unique to_base).2
  · obtain ⟨f, left, first, _⟩ := to_base.split sound same (FileTree.get?_root tree)
    simpa using (leads.unique first).2

theorem exists_way (sound : tree.Sound) (here : base.Proper) (standing : tree.isFolder base = true)
    {e : FileRecords} {input : Text} (member : e ∈ (documentOf tree base config input).files) :
    ∃ p ∈ sourceFiles tree base input config.pattern, ∃ shared up within name,
      base.Fork p shared up (within ++ [name]) ∧ ∀ folder, (targetPath folder e.file).names =
        folder.names.rdrop up.length ++ within ++ [jsonName name] := by
  obtain ⟨p, found, proper, ⟨t, read⟩, file⟩ := exists_source sound here member
  obtain ⟨shared, up, down, fork, text⟩ := Path.exists_fork base p
  have below : down ≠ [] := by
    rintro rfl
    refine not_prefix_of_read sound standing read ⟨up, ?_⟩
    rw [fork.base, fork.path, List.append_nil]
  obtain ⟨within, name, rfl⟩ := List.eq_nil_or_concat' down |>.resolve_left below
  refine ⟨p, found, shared, up, within, name, fork, fun folder => ?_⟩
  rw [file, fork.targetPath_names proper text]

/-- The result of a source is written where the way from the working directory to the source leads
from the output folder on. It is then under that folder if the source is under the working
directory; if the way first goes up, only if it comes down through the last names of the folder. -/
theorem separate_write_isUnder_iff (sound : tree.Sound) (here : base.Proper)
    (standing : tree.isFolder base = true)
    (loaded : Config.load tree base env r.configPath r.overrides = .ok config)
    (asked : r.outDir ≠ []) :
    let d := documentOf tree base config r.input
    let sources := sourceFiles tree base r.input config.pattern
    let folder := base.resolve r.outDir
    ((harvest tree base env r).tree = if sources = [] then tree
      else (tree.writeAll (d.separateWrites folder ++ r.wholeWrites base d)).1) ∧
    ∀ w ∈ d.separateWrites folder, ∃ p ∈ sources, ∃ shared up within name,
      base.Fork p shared up (within ++ [name]) ∧
      w.path.names = folder.names.rdrop up.length ++ within ++ [jsonName name] ∧
      (w.path.IsUnder folder ↔ folder.names.rtake up.length <+: within) ∧
      (base.names <+: p.names → w.path.IsUnder folder) := by
  intro d sources folder
  constructor
  · split
    · next none_found =>
      have none_found : sourceFiles tree base r.input config.pattern = [] := none_found
      simp [harvest, loaded, none_found]
    · next found =>
      obtain ⟨fault, done, _⟩ := harvest_writes loaded found
      rw [← r.writes_of_outDir asked base d, done]
  · intro w member
    obtain ⟨e, entry, rfl⟩ := List.mem_map.mp member
    obtain ⟨p, found, shared, up, within, name, fork, names⟩ := exists_way sound here standing entry
    have under := isUnder_iff (names folder) folder
    rw [prefix_rdrop_append_iff] at under
    refine ⟨p, found, shared, up, within, name, fork, names folder, under, fun below => ?_⟩
    rw [under, fork.up_eq_nil below]
    simp [List.rtake]

end Run

-- Two sources in the working directory, whose names differ in the extension, and one beside it.
def sampleTree : FileTree where
  entries := [(⟨[['w']]⟩, .folder), (⟨[['w'], "a.lua".toList]⟩, .file (some [])),
    (⟨[['w'], "a.txt".toList]⟩, .file (some [])), (⟨[['s']]⟩, .folder),
    (⟨[['s'], "x.lua".toList]⟩, .file (some []))]

def sampleBase : Path := ⟨[['w']]⟩

def sampleConfig : Config := ⟨.default, Config.defaultInclude, Config.defaultSort⟩

def sampleRequest (input outDir : String) : Request :=
  ⟨input.toList, [], outDir.toList, none, [], true⟩

theorem sampleTree_sound : sampleTree.Sound := FileTree.sound_of_entries (by decide)

theorem load_sample : Config.load sampleTree sampleBase [] none [] = .ok sampleConfig := by cbv

theorem separate_write_isUnder_iff_sample :
    let r := sampleRequest "a.lua" "o"
    let d := documentOf sampleTree sampleBase sampleConfig r.input
    let folder := sampleBase.resolve r.outDir
    sampleTree.Sound ∧ sampleBase.Proper ∧ sampleTree.isFolder sampleBase = true ∧
      Config.load sampleTree sampleBase [] r.configPath r.overrides = .ok sampleConfig ∧
      (d.separateWrites folder).map Write.path = [folder.child "a.json".toList] ∧
      ∀ w ∈ d.separateWrites folder, w.path.IsUnder folder := by
  intro r d folder
  have here : sampleBase.Proper := by decide
  have standing : sampleTree.isFolder sampleBase = true := by cbv
  have writes : (d.separateWrites folder).map Write.path = [folder.child "a.json".toList] := by cbv
  refine ⟨sampleTree_sound, here, standing, load_sample, writes, ?_⟩
  intro w member
  obtain ⟨p, found, _, _, _, _, _, _, _, under⟩ := (separate_write_isUnder_iff (r := r)
    sampleTree_sound here standing load_sample (by decide)).2 w member
  have sources : sourceFiles sampleTree sampleBase r.input sampleConfig.pattern =
      [sampleBase.child "a.lua".toList] := by cbv
  obtain rfl : p = sampleBase.child "a.lua".toList := by simpa [sources] using found
  exact under ⟨["a.lua".toList], rfl⟩

theorem separate_write_escapes :
    let r := sampleRequest "../s" "o/p"
    let target := sampleBase.resolve "o/s/x.json".toList
    sampleTree.get? target = none ∧
      (harvest sampleTree sampleBase [] r).tree.read target =
        .ok (Json.page (FileRecords.value ⟨"../s/x.lua".toList, []⟩)) ∧
      ¬ target.IsUnder (sampleBase.resolve r.outDir) := by
  refine ⟨by decide, by cbv, ?_⟩
  rintro ⟨rest, _, split⟩
  have names : (sampleBase.resolve "o/s/x.json".toList).names =
      [['w'], ['o'], ['s'], "x.json".toList] := by decide
  have folder : (sampleBase.resolve (sampleRequest "../s" "o/p").outDir).names =
      [['w'], ['o'], ['p']] := by decide
  rw [names, folder] at split
  simp at split

end DocHarvest
