import DocHarvest.Proofs.Files.Writing
import DocHarvest.Proofs.Harvest.Sources

set_option autoImplicit false

namespace DocHarvest

namespace FileTree

def SameFile (tree : FileTree) (p q : Path) : Prop :=
  ∃ place e f, tree.find p = .ok (place, e) ∧ tree.find q = .ok (place, f)

def leadsTo (tree : FileTree) (p place : Path) : Bool :=
  match tree.find p with
  | .ok (q, _) => q == place
  | .error _ => false

def writesAt (tree : FileTree) (place : Path) (ws : List Write) : List Write :=
  ws.filter fun w => tree.leadsTo w.path place

theorem writeAll_append (tree : FileTree) (ws more : List Write) : tree.writeAll (ws ++ more) =
    match tree.writeAll ws with
    | (tree, none) => tree.writeAll more
    | (tree, some e) => (tree, some e) := by
  induction ws generalizing tree with
  | nil => rfl
  | cons w ws ih =>
    cases written : tree.write w.path w.text with
    | ok next => simp [writeAll, written, ih]
    | error e => simp [writeAll, written]

structure Delivered (before after : FileTree) (ws : List Write) : Prop where
  sound : after.Sound
  keeps : Keeps before after
  reached : ∀ w ∈ ws, ∃ place t, after.find w.path = .ok (place, some (.file t))
  last : ∀ place t, before.get? place = some (.file t) →
    after.get? place = some (.file (((after.writesAt place ws).getLast?.map Write.text).or t))

theorem leadsTo_eq {tree : FileTree} {p place q : Path} {e : Option Entry}
    (found : tree.find p = .ok (q, e)) : tree.leadsTo p place = decide (q = place) := by
  simp [leadsTo, found, BEq.beq]

theorem delivered_of_writeAll {tree tree' : FileTree} (sound : tree.Sound) {ws : List Write}
    (proper : ∀ w ∈ ws, w.path.Proper) (done : tree.writeAll ws = (tree', none)) :
    Delivered tree tree' ws := by
  induction ws generalizing tree with
  | nil =>
    cases done
    exact ⟨sound, .refl _, by simp, by simp [writesAt]⟩
  | cons w ws ih =>
    unfold writeAll at done
    split at done
    · next next written =>
      obtain ⟨sound', keeps, place, found, others⟩ := write_leads sound (proper w (by simp)) written
      have rest := ih sound' (fun v member => proper v (by simp [member])) done
      have again := find_eq_ok_iff.mpr (rest.keeps.leads (find_eq_ok_iff.mp found))
      have here : next.get? place = some (.file (some w.text)) :=
        (find_eq_ok_iff.mp found).entry.symm
      refine ⟨rest.sound, keeps.trans rest.keeps, ?_, ?_⟩
      · intro v member
        rcases List.mem_cons.mp member with rfl | member
        · rw [rest.last place _ here] at again
          exact ⟨place, _, again⟩
        · exact rest.reached v member
      · intro q t file
        by_cases same : q = place
        · subst same
          have listed : tree'.writesAt q (w :: ws) = w :: tree'.writesAt q ws := by
            simp [writesAt, leadsTo_eq again]
          rw [rest.last q _ here, listed, List.getLast?_cons]
          cases (tree'.writesAt q ws).getLast? <;> rfl
        · have listed : tree'.writesAt q (w :: ws) = tree'.writesAt q ws := by
            simp [writesAt, leadsTo_eq again, Ne.symm same]
          rw [listed]
          exact rest.last q t (others q t same file)
    · cases done

theorem sameFile_iff_leadsTo {tree : FileTree} {p q place : Path} {e : Option Entry}
    (found : tree.find q = .ok (place, e)) : tree.SameFile p q ↔ tree.leadsTo p place = true := by
  unfold SameFile leadsTo
  split
  · next other f there =>
    simp only [there, found, Except.ok.injEq, Prod.mk.injEq, beq_iff_eq]
    constructor
    · rintro ⟨_, _, _, ⟨rfl, _⟩, rfl, _⟩
      rfl
    · rintro rfl
      exact ⟨_, _, _, ⟨rfl, rfl⟩, rfl, rfl⟩
  · next fault there => simp [there]

-- Of several writes to one file the last is read. A write is then lost exactly if a later one leads
-- to the same file with another text.
theorem read_iff_not_sameFile {tree tree' : FileTree} (sound : tree.Sound) {w : Write}
    {before after : List Write} (proper : ∀ v ∈ before ++ w :: after, v.path.Proper)
    (done : tree.writeAll (before ++ w :: after) = (tree', none))
    (differ : ∀ v ∈ after, v.text ≠ w.text) :
    tree'.read w.path = .ok w.text ↔ ∀ v ∈ after, ¬ tree'.SameFile v.path w.path := by
  rw [writeAll_append] at done
  obtain ⟨proper_before, proper_w, proper_after⟩ :
      (∀ v ∈ before, v.path.Proper) ∧ w.path.Proper ∧ ∀ v ∈ after, v.path.Proper := by
    simpa [or_imp, forall_and] using proper
  cases first : tree.writeAll before with
  | mk middle fault =>
    rw [first] at done
    cases fault with
    | some e => cases done
    | none =>
      have sound' := (delivered_of_writeAll sound proper_before first).sound
      unfold writeAll at done
      dsimp only at done
      split at done
      · next next written =>
        obtain ⟨sound'', _, place, found, _⟩ := write_leads sound' proper_w written
        have rest := delivered_of_writeAll sound'' proper_after done
        have here : next.get? place = some (.file (some w.text)) :=
          (find_eq_ok_iff.mp found).entry.symm
        have again := find_eq_ok_iff.mpr (rest.keeps.leads (find_eq_ok_iff.mp found))
        have last := rest.last place _ here
        rw [last] at again
        have same (v : Write) : tree'.SameFile v.path w.path ↔ tree'.leadsTo v.path place = true :=
          sameFile_iff_leadsTo again
        simp only [FileTree.read, again, same]
        cases ends : (tree'.writesAt place after).getLast? with
        | none =>
          have none_left : tree'.writesAt place after = [] := List.getLast?_eq_none_iff.mp ends
          simpa [writesAt] using none_left
        | some v =>
          obtain ⟨member, leads⟩ := List.mem_filter.mp (List.mem_of_getLast? ends)
          have lost : v.text ≠ w.text := differ v member
          simp only [Option.map_some, Option.some_or, Except.ok.injEq, lost, false_iff]
          exact fun apart => apart v member leads
      · cases done

end FileTree

def Request.writes (r : Request) (base : Path) (d : Document) : List Write :=
  (r.batches base d).flatMap Batch.writes

def Request.wholeWrites (r : Request) (base : Path) (d : Document) : List Write :=
  if r.output = [] then [] else [⟨base.resolve r.output, Json.page d.value⟩]

theorem Request.writes_eq (r : Request) (base : Path) (d : Document) : r.writes base d =
    (if r.outDir = [] then [] else d.separateWrites (base.resolve r.outDir)) ++
      r.wholeWrites base d := by
  by_cases separate : r.outDir = [] <;> by_cases whole : r.output = [] <;>
    simp [writes, batches, wholeWrites, separate, whole]

theorem Request.writes_of_outDir {r : Request} (asked : r.outDir ≠ []) (base : Path)
    (d : Document) :
    r.writes base d = d.separateWrites (base.resolve r.outDir) ++ r.wholeWrites base d := by
  rw [r.writes_eq, if_neg asked]

theorem deliver_eq (tree : FileTree) (bs : List Batch) :
    ((deliver tree bs).tree, (deliver tree bs).error) =
      tree.writeAll (bs.flatMap Batch.writes) := by
  induction bs generalizing tree with
  | nil => rfl
  | cons b bs ih =>
    rw [List.flatMap_cons, FileTree.writeAll_append]
    cases done : tree.writeAll b.writes with
    | mk next fault =>
      cases fault with
      | none =>
        simp only [deliver, done]
        exact ih next
      | some e => simp [deliver, done]

theorem finish_delivers (tree : FileTree) (base : Path) (r : Request) (rs : List Reading) :
    (finish tree base r rs).tree = (deliver tree (r.batches base (.ofReadings rs))).tree ∧
      ∀ fault, (deliver tree (r.batches base (.ofReadings rs))).error = some fault →
        (finish tree base r rs).result = .error (.file fault) := by
  unfold finish
  dsimp only
  split
  · next e failed => simp [failed]
  · next done => simp [done]

theorem harvest_of_found {tree : FileTree} {base : Path} {env : Environment} {r : Request}
    {config : Config} (loaded : Config.load tree base env r.configPath r.overrides = .ok config)
    (found : sourceFiles tree base r.input config.pattern ≠ []) :
    harvest tree base env r = finish tree base r
      ((sourceFiles tree base r.input config.pattern).map (Reading.ofPath tree base config)) := by
  cases files : sourceFiles tree base r.input config.pattern with
  | nil => exact absurd files found
  | cons p ps => simp [harvest, loaded, files]

-- A run changes the tree by its writes alone, and a write that fails is the error of the run.
theorem harvest_writes {tree : FileTree} {base : Path} {env : Environment} {r : Request}
    {config : Config} (loaded : Config.load tree base env r.configPath r.overrides = .ok config)
    (found : sourceFiles tree base r.input config.pattern ≠ []) :
    ∃ fault, tree.writeAll (r.writes base (documentOf tree base config r.input)) =
        ((harvest tree base env r).tree, fault) ∧
      ∀ e, fault = some e → (harvest tree base env r).result = .error (.file e) := by
  obtain ⟨reached, failed⟩ := finish_delivers tree base r
    ((sourceFiles tree base r.input config.pattern).map (Reading.ofPath tree base config))
  rw [← harvest_of_found loaded found] at reached failed
  rw [reached]
  exact ⟨_, (deliver_eq tree _).symm, failed⟩

end DocHarvest
