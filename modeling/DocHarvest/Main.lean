import DocHarvest.CommandLine.Session
import DocHarvest.Text.Utf8

set_option autoImplicit false

namespace DocHarvest.Main

def place (p : Path) : IO.FS.DirEntry :=
  { root := String.ofList p.parent.text, fileName := String.ofList (p.names.getLast?.getD []) }

/-- A link is kept by where it leads in the end; one that leads nowhere is given a free name. -/
def linkTarget (p : Path) : IO Text := do
  match ← (IO.FS.realPath (place p).path).toBaseIO with
  | .ok target => return target.toString.toList
  | .error _ => return p.text ++ " (missing)".toList

-- A folder that may not be listed is taken as empty, and a file that may not be read keeps its place.
partial def picture (tree : FileTree) (p : Path) : IO FileTree := do
  match ← ((place p).path.symlinkMetadata).toBaseIO with
  | .error _ => return tree
  | .ok status =>
    match status.type with
    | .dir =>
      let mut tree := tree.place p .folder
      for entry in (← (place p).path.readDir.toBaseIO).toOption.getD #[] do
        tree ← picture tree (p.child entry.fileName.toList)
      return tree
    | .symlink => return tree.place p (.link (← linkTarget p))
    | _ =>
      let bytes ← (IO.FS.readBinFile (place p).path).toBaseIO
      return tree.place p (.file (bytes.toOption.map Utf8.decode))

partial def nearest (p : Path) : IO Path := do
  if p = .root then return p
  if ← (place p).path.pathExists then return p
  nearest p.parent

def pictureFor (base : Path) (args : List Text) : IO FileTree := do
  let mut tree ← picture FileTree.empty base
  for arg in args do
    let p ← nearest (base.resolve ((arg.splitOn '=').getLast?.getD []))
    unless p = .root || base.names.isPrefixOf p.names do
      tree ← picture tree p
  return tree

def variableNames : List String := "DEBUG" :: Config.settingVariables.map Prod.snd

def environment : IO Environment := do
  let found ← variableNames.mapM fun name => do
    return (← IO.getEnv name).map fun text => (name.toList, text.toList)
  return found.filterMap id

def save (before after : FileTree) : IO Unit := do
  for (p, text) in before.changes after do
    IO.FS.createDirAll (place p.parent).path
    IO.FS.writeFile (place p).path (String.ofList text)

def run (args : List Text) : IO UInt32 := do
  let base := Path.root.resolve (← IO.currentDir).toString.toList
  let tree ← pictureFor base args
  let session := CommandLine.session tree base (← environment) args
  save tree session.tree
  for line in session.shown do
    IO.eprintln line
  IO.print (String.ofList session.printed)
  return UInt32.ofNat session.exitCode

end DocHarvest.Main

def main (args : List String) : IO UInt32 := DocHarvest.Main.run (args.map String.toList)
