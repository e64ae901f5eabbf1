import LuaMinifier.CommandLine

/-!
The program. It takes the files that a run meets into a tree, runs the command line on the tree, and writes back what
has changed. A module that is missing in the tree is looked for on the disk, and the run is done again with it.
-/

namespace LuaMinifier
namespace CommandLine

/-- The place of a path, by its text alone. -/
def placeOf (path : Path) : Place :=
  (FileTree.names path).foldl (fun place name =>
    if Path.isTrivial name then place else if name = ".." then place.up else place ++ [name]) (FileTree.base path)

/-- The path to a place. -/
def pathTo (place : Place) : String := if place.isEmpty then "." else "/".intercalate place

/-- Takes what is at a place into a tree, without what is below it. -/
def takePlace (place : Place) (tree : FileTree) : IO FileTree := do
  let location := (← IO.currentDir) / pathTo place
  if place.isOuter then return tree
  else if ← location.isDir then return tree.insert place .directory
  else if ← location.pathExists then return tree.insert place (.file (← IO.FS.readBinFile location))
  else return tree

/-- Takes what is on the way along a path into a tree. -/
def takePath (path : Path) (tree : FileTree) : IO FileTree :=
  let place := placeOf path
  ((List.range (place.length + 1)).map place.take).foldlM (fun tree place => takePlace place tree) tree

/-- Takes everything below a place into a tree. -/
partial def takeBelow (place : Place) (tree : FileTree) : IO FileTree := do
  let location := (← IO.currentDir) / pathTo place
  let tree ← takePlace place tree
  if ← location.isDir then
    (← location.readDir).foldlM (fun tree entry => takeBelow (place ++ [entry.fileName]) tree) tree
  else return tree

/-- Runs until no module is missing that is on the disk. Gives the tree before the run, and its report. -/
partial def settle (arguments : Arguments) (tree : FileTree) : IO (FileTree × Report) := do
  let report := execute arguments tree
  let taken ← report.missing.foldlM (fun tree path => takePath path tree) tree
  if taken.entries.length = tree.entries.length then return (tree, report) else settle arguments taken

/-- Writes to the disk what has changed. -/
def writeBack (before after : FileTree) : IO Unit :=
  after.entries.forM fun (place, node) =>
    match node, before.find? place with
    | .file content, some (.file old) =>
      if content.data == old.data then return else IO.FS.writeBinFile (pathTo place) content
    | .file content, _ => IO.FS.writeBinFile (pathTo place) content
    | .directory, none => IO.FS.createDirAll (pathTo place)
    | .directory, some _ => return

/-- Does what the arguments ask for, on the disk. -/
def perform (arguments : Arguments) : IO UInt32 := do
  let tree ← takePath (arguments.config.getD ⟨Config.fileName⟩) .empty
  let options := ((configured tree arguments.config).toOption.getD {}).merge arguments.overrides
  let tree ← (options.outDir.toList.map fun directory => (⟨directory⟩ : Path)).foldlM
    (fun tree path => takePath path tree) tree
  let tree ← arguments.files.foldlM (fun tree path => do takeBelow (placeOf path) (← takePath path tree)) tree
  let (tree, report) ← settle arguments tree
  writeBack tree report.files
  IO.print report.output
  IO.eprint report.errors
  return report.exitCode.toUInt32

end CommandLine
end LuaMinifier

open LuaMinifier.CommandLine in
/-- Runs the program with its arguments. -/
def main (arguments : List String) : IO UInt32 := do
  match Arguments.parse arguments with
  | .ok arguments => perform arguments
  | .error stop =>
    if stop.isError then IO.eprint stop.message else IO.print stop.message
    return if stop.isError then 2 else 0
