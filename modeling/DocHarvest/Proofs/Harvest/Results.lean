import DocHarvest.Proofs.Harvest.Pages
import DocHarvest.Proofs.Harvest.Targets

set_option autoImplicit false

namespace DocHarvest

-- Without links, paths that lead to one file are the same.
theorem FileTree.SameFile.eq_of_no_links {tree : FileTree} {p q : Path} (same : tree.SameFile p q)
    (no_link : ∀ place target, tree.get? place ≠ some (.link target)) (proper : p.Proper)
    (other : q.Proper) : p = q := by
  have reached {p place : Path} {e : Option Entry} (proper : p.Proper)
      (found : tree.find p = .ok (place, e)) : place = p := by
    have names := (find_eq_ok_iff.mp found).names_eq no_link proper.straight
    cases p
    cases place
    simpa [Path.root] using names
  obtain ⟨place, e, f, found, found'⟩ := same
  exact (reached proper found).symm.trans (reached other found')

section Writes

variable {tree tree' : FileTree} {base folder : Path} {r : Request} {d : Document}

theorem mem_wholeWrites {w : Write} (member : w ∈ r.wholeWrites base d) :
    w = ⟨base.resolve r.output, Json.page d.value⟩ := by
  unfold Request.wholeWrites at member
  split at member
  · cases member
  · exact List.mem_singleton.mp member

theorem proper_of_mem_writes (here : base.Proper) (proper : folder.Proper) :
    ∀ w ∈ d.separateWrites folder ++ r.wholeWrites base d, w.path.Proper := by
  intro w member
  rcases List.mem_append.mp member with separate | whole
  · obtain ⟨e, _, rfl⟩ := List.mem_map.mp separate
    exact proper.resolve _
  · rw [mem_wholeWrites whole]
    exact here.resolve _

variable (sound : tree.Sound) (here : base.Proper) (proper : folder.Proper)
  (done : tree.writeAll (d.separateWrites folder ++ r.wholeWrites base d) = (tree', none))

include sound here proper done

theorem read_target_iff (distinct : d.files.Pairwise fun e f => e.file ≠ f.file)
    {before after : List FileRecords} {e : FileRecords} (split : d.files = before ++ e :: after) :
    tree'.read (targetPath folder e.file) = .ok (Json.page e.value) ↔
      (∀ f ∈ after, ¬ tree'.SameFile (targetPath folder f.file) (targetPath folder e.file)) ∧
      (r.output ≠ [] → ¬ tree'.SameFile (base.resolve r.output) (targetPath folder e.file)) := by
  have writes : d.separateWrites folder ++ r.wholeWrites base d =
      (⟨before⟩ : Document).separateWrites folder ++
        ⟨targetPath folder e.file, Json.page e.value⟩ ::
          ((⟨after⟩ : Document).separateWrites folder ++ r.wholeWrites base d) := by
    simp [Document.separateWrites, split]
  have later : ∀ v ∈ (⟨after⟩ : Document).separateWrites folder ++ r.wholeWrites base d,
      v.text ≠ Json.page e.value := by
    intro v member
    rcases List.mem_append.mp member with separate | whole
    · obtain ⟨f, listed, rfl⟩ := List.mem_map.mp separate
      rw [split] at distinct
      have differ := List.rel_of_pairwise_cons (List.pairwise_append.mp distinct).2.1 listed
      exact fun same => differ (FileRecords.file_eq_of_page_eq same).symm
    · rw [mem_wholeWrites whole]
      exact d.page_ne e
  have paths := proper_of_mem_writes (r := r) (d := d) here proper
  rw [writes] at done paths
  rw [FileTree.read_iff_not_sameFile sound paths done later, List.forall_mem_append]
  by_cases quiet : r.output = [] <;>
    simp [Document.separateWrites, Request.wholeWrites, quiet]

theorem sameFile_target {e : FileRecords} (member : e ∈ d.files) :
    tree'.SameFile (targetPath folder e.file) (targetPath folder e.file) := by
  have delivered :=
    FileTree.delivered_of_writeAll sound (proper_of_mem_writes here proper) done
  have written : ⟨targetPath folder e.file, Json.page e.value⟩ ∈
      d.separateWrites folder ++ r.wholeWrites base d :=
    List.mem_append_left _ (List.mem_map.mpr ⟨e, member, rfl⟩)
  obtain ⟨place, t, found⟩ := delivered.reached _ written
  exact ⟨place, _, _, found, found⟩

theorem eq_target_of_sameFile (no_link : ∀ place target, tree.get? place ≠ some (.link target))
    {e : FileRecords} {p : Path} (other : p.Proper)
    (same : tree'.SameFile p (targetPath folder e.file)) : p = targetPath folder e.file := by
  have delivered :=
    FileTree.delivered_of_writeAll sound (proper_of_mem_writes here proper) done
  apply same.eq_of_no_links _ other (proper.resolve _)
  exact fun place target now => no_link place target (delivered.keeps.link.mp now)

end Writes

section Run

variable {tree : FileTree} {base : Path} {env : Environment} {r : Request} {config : Config}

theorem head?_file_ne_slash (sound : tree.Sound) (here : base.Proper) {input : Text}
    {e : FileRecords} (member : e ∈ (documentOf tree base config input).files) :
    e.file.head? ≠ some '/' := by
  obtain ⟨p, _, proper, _, file⟩ := exists_source sound here member
  obtain ⟨shared, up, down, fork, text⟩ := Path.exists_fork base p
  rw [file]
  exact fork.head?_ne_slash proper text

theorem writeAll_of_harvest (sound : tree.Sound) (here : base.Proper)
    (loaded : Config.load tree base env r.configPath r.overrides = .ok config)
    (asked : r.outDir ≠ []) {e : FileRecords}
    (member : e ∈ (documentOf tree base config r.input).files)
    (written : ∀ fault, (harvest tree base env r).result ≠ .error (.file fault)) :
    tree.writeAll ((documentOf tree base config r.input).separateWrites (base.resolve r.outDir) ++
      r.wholeWrites base (documentOf tree base config r.input)) =
        ((harvest tree base env r).tree, none) := by
  obtain ⟨p, found, _⟩ := exists_source sound here member
  obtain ⟨fault, done, failed⟩ := harvest_writes loaded (List.ne_nil_of_mem found)
  rw [r.writes_of_outDir asked] at done
  cases fault with
  | none => exact done
  | some fault => exact absurd (failed fault rfl) (written fault)

/-- The names of the entries differ, but not always their targets, which forget the extension and
the folders that a way leads up and down through. After a run without a failed write, a result can
be read at its target if and only if no later result, nor the whole document, went to the same
file. One path leads to one file, and without links two paths do not. -/
theorem separate_result_kept_iff (sound : tree.Sound) (here : base.Proper)
    (loaded : Config.load tree base env r.configPath r.overrides = .ok config)
    (asked : r.outDir ≠ []) :
    let d := documentOf tree base config r.input
    let folder := base.resolve r.outDir
    let target := fun e : FileRecords => targetPath folder e.file
    let out := harvest tree base env r
    d.files.Pairwise (fun e f => e.file ≠ f.file) ∧
    (∀ e ∈ d.files, ∀ f ∈ d.files, target e = target f ↔
      folder.walk (Path.folderNames e.file) = folder.walk (Path.folderNames f.file) ∧
        Path.withoutExtension (Path.lastName e.file) =
          Path.withoutExtension (Path.lastName f.file)) ∧
    ((∀ fault, out.result ≠ .error (.file fault)) →
      (∀ before e after, d.files = before ++ e :: after →
        (out.tree.read (target e) = .ok (Json.page e.value) ↔
          (∀ f ∈ after, ¬ out.tree.SameFile (target f) (target e)) ∧
          (r.output ≠ [] → ¬ out.tree.SameFile (base.resolve r.output) (target e)))) ∧
      ∀ e ∈ d.files, out.tree.SameFile (target e) (target e) ∧
        ((∀ place link, tree.get? place ≠ some (.link link)) →
          ∀ p : Path, p.Proper → out.tree.SameFile p (target e) → p = target e)) := by
  intro d folder target out
  have distinct : d.files.Pairwise (fun e f => e.file ≠ f.file) :=
    documentOf_files_distinct sound here
  have proper : folder.Proper := here.resolve _
  refine ⟨distinct, ?_, fun written => ⟨?_, ?_⟩⟩
  · intro e first f second
    exact targetPath_eq_iff folder (head?_file_ne_slash sound here first)
      (head?_file_ne_slash sound here second)
  · intro before e after split
    have member : e ∈ d.files := by simp [split]
    have done := writeAll_of_harvest sound here loaded asked member written
    exact read_target_iff sound here proper done distinct split
  · intro e member
    have done := writeAll_of_harvest sound here loaded asked member written
    refine ⟨sameFile_target sound here proper done member, ?_⟩
    intro no_link p other same
    exact eq_target_of_sameFile sound here proper done no_link other same

end Run

theorem separate_result_kept_iff_sample :
    let r := sampleRequest "a.*" "o"
    let e : FileRecords := ⟨"a.txt".toList, []⟩
    sampleTree.Sound ∧ sampleBase.Proper ∧
      Config.load sampleTree sampleBase [] r.configPath r.overrides = .ok sampleConfig ∧
      (documentOf sampleTree sampleBase sampleConfig r.input).files = [⟨"a.lua".toList, []⟩, e] ∧
      (harvest sampleTree sampleBase [] r).tree.read
        (targetPath (sampleBase.resolve r.outDir) e.file) = .ok (Json.page e.value) := by
  have here : sampleBase.Proper := by decide
  have files : (documentOf sampleTree sampleBase sampleConfig "a.*".toList).files =
      [⟨"a.lua".toList, []⟩] ++ ⟨"a.txt".toList, []⟩ :: [] := by cbv
  have ended : (harvest sampleTree sampleBase [] (sampleRequest "a.*" "o")).result.isOk = true := by
    cbv
  refine ⟨sampleTree_sound, here, load_sample, files, ?_⟩
  have kept := (separate_result_kept_iff (r := sampleRequest "a.*" "o") sampleTree_sound here
    load_sample (by decide)).2.2
  refine ((kept ?_).1 _ _ _ files).mpr ⟨by simp, by simp [sampleRequest]⟩
  intro fault failed
  rw [failed] at ended
  cases ended

-- The results of `a.lua` and `a.txt` go to one file, and that of `a.txt` is left.
theorem separate_result_lost :
    let r := sampleRequest "a.*" "o"
    let target := fun e : FileRecords => targetPath (sampleBase.resolve r.outDir) e.file
    let e : FileRecords := ⟨"a.lua".toList, []⟩
    let f : FileRecords := ⟨"a.txt".toList, []⟩
    (documentOf sampleTree sampleBase sampleConfig r.input).files = [e, f] ∧ target e = target f ∧
      (harvest sampleTree sampleBase [] r).tree.read (target e) = .ok (Json.page f.value) ∧
      Json.page f.value ≠ Json.page e.value := by
  refine ⟨by cbv, by decide, by cbv, ?_⟩
  intro same
  exact absurd (FileRecords.file_eq_of_page_eq same) (by decide)

end DocHarvest
