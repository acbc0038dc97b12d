import DocHarvest.Proofs.Harvest.Delivery
import DocHarvest.Proofs.Text.Units
import Mathlib

set_option autoImplicit false

namespace DocHarvest

inductive FileTree.Writes : FileTree → List Write → FileTree → Prop where
  | done {tree : FileTree} : Writes tree [] tree
  | next {tree middle after : FileTree} {w : Write} {ws : List Write} :
      tree.write w.path w.text = .ok middle → Writes middle ws after → Writes tree (w :: ws) after

theorem FileTree.Writes.writeAll {tree after : FileTree} {ws : List Write}
    (writes : tree.Writes ws after) : tree.writeAll ws = (after, none) := by
  induction writes with
  | done => rfl
  | next written _ ih => simp [FileTree.writeAll, written, ih]

section Readings

variable (tree : FileTree) (base : Path) (config : Config)

structure IsEntry (p : Path) (e : FileRecords) : Prop where
  file : e.file = base.relativeTo p
  records : ∃ t, tree.read p = .ok t ∧
    e.records = Record.sort config.sort (Record.ofText config.settings t)

end Readings

section Run

variable {tree after : FileTree} {base : Path} {r : Request}

end Run

end DocHarvest
