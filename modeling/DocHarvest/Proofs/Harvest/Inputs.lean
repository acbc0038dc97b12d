import DocHarvest.Proofs.Glob.Route
import DocHarvest.Proofs.Harvest.Targets

set_option autoImplicit false

namespace DocHarvest

namespace Path

theorem IsUnder.trans {p q r : Path} (lower : r.IsUnder q) (upper : q.IsUnder p) : r.IsUnder p := by
  obtain ⟨more, _, names⟩ := lower
  obtain ⟨rest, some_rest, above⟩ := upper
  exact ⟨rest ++ more, by simp [some_rest], by simp [names, above]⟩

end Path

namespace FileTree

variable {tree : FileTree} {p : Path}

end FileTree

namespace Glob

variable {tree : FileTree}

end Glob

section Literal

variable {tree : FileTree} {base : Path} {input pattern : Text}

section Names

variable {first : Text} {rest : List Text} (literal : Glob.Literal input)
  (split : input.splitOn '/' = first :: rest)

include literal split

end Names

section Folder

end Folder

end Literal

end DocHarvest
