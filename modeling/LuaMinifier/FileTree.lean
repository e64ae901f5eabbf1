import LuaMinifier.Bundle.Library

/-!
Files and directories as a value. A place is the list of names that leads to it from the working directory; it may
start with steps upwards or with the root, and those directories are always there. Reading finds what was written
last, and only below directories that exist.
-/

namespace LuaMinifier

/-- The names that lead to a file or directory. -/
abbrev Place := List String

namespace Place

def root : Place := ["/"]

/-- Places above the working directory, and the root. -/
def isOuter (place : Place) : Bool := place = root || place.all (· = "..")

def up (place : Place) : Place :=
  if place = root then root else if place.isOuter then place ++ [".."] else place.dropLast

end Place

inductive FileNode
  | file (content : ByteArray)
  | directory

structure FileTree where
  entries : List (Place × FileNode)

namespace FileTree

def empty : FileTree := ⟨[]⟩

def find? (tree : FileTree) (place : Place) : Option FileNode :=
  if place.isOuter then some .directory else tree.entries.lookup place

def isDirectoryAt (tree : FileTree) (place : Place) : Bool :=
  match tree.find? place with
  | some .directory => true
  | _ => false

/-- Puts something at a place, instead of what was there. -/
def set (tree : FileTree) (place : Place) (node : FileNode) : FileTree :=
  if (tree.entries.lookup place).isSome then
    ⟨tree.entries.map fun entry => if entry.1 = place then (place, node) else entry⟩
  else ⟨tree.entries ++ [(place, node)]⟩

/-- Puts something at a place, and the missing directories above it. -/
def insert (tree : FileTree) (place : Place) (node : FileNode) : FileTree :=
  let above := (List.range place.length).map place.take
  (above.foldl (fun tree place => if (tree.find? place).isSome then tree else tree.set place .directory) tree).set
    place node

/-- One step from a place. Only a directory can be left by a name. -/
def step (tree : FileTree) (place : Place) (name : String) : Except FileFault Place :=
  if !tree.isDirectoryAt place then .error .notDirectory
  else if Path.isTrivial name then .ok place
  else if name = ".." then .ok place.up
  else if (tree.find? (place ++ [name])).isSome then .ok (place ++ [name])
  else .error .notFound

def names (path : Path) : List String := cut '/' path.text

def base (path : Path) : Place := if path.isAbsolute then .root else []

def resolve (tree : FileTree) (path : Path) : Except FileFault Place :=
  if path.text.isEmpty then .error .notFound else (names path).foldlM tree.step (base path)

def isDirectory (tree : FileTree) (path : Path) : Bool :=
  match tree.resolve path with
  | .ok place => tree.isDirectoryAt place
  | .error _ => false

def exists? (tree : FileTree) (path : Path) : Bool := (tree.resolve path).toBool

def readText (tree : FileTree) (path : Path) : Except FileFault String := do
  let place ← tree.resolve path
  match tree.find? place with
  | some (.file content) =>
    match String.fromUTF8? content with
    | some text => .ok text
    | none => .error .invalidText
  | some .directory => .error .isDirectory
  | none => .error .notFound

/-- The directory in which a path names something, and the name, if it is not a step upwards or nowhere. Without a
name the path leads to a directory that is there already. -/
def target (tree : FileTree) (path : Path) : Except FileFault (Place × Option String) := do
  if path.text.isEmpty then .error .notFound
  match (names path).reverse.dropWhile (· = "") with
  | [] => return (base path, none)
  | last :: earlier =>
    let place ← earlier.reverse.foldlM tree.step (base path)
    if !tree.isDirectoryAt place then .error .notDirectory
    return (place, if last = "." || last = ".." then none else some last)

/-- Writes a file, new or in place of an old one. -/
def write (tree : FileTree) (path : Path) (content : ByteArray) : Except FileFault FileTree := do
  match ← tree.target path with
  | (_, none) => .error .isDirectory
  | (place, some name) =>
    if path.text.toList.getLast? = some '/' || tree.isDirectoryAt (place ++ [name]) then .error .isDirectory
    else return tree.set (place ++ [name]) (.file content)

def writeText (tree : FileTree) (path : Path) (text : String) : Except FileFault FileTree :=
  tree.write path text.toUTF8

def makeDirectory (tree : FileTree) (path : Path) : Except FileFault FileTree := do
  match ← tree.target path with
  | (_, none) => .error .exists
  | (place, some name) =>
    if (tree.find? (place ++ [name])).isSome then .error .exists
    else return tree.set (place ++ [name]) .directory

/-- Makes a directory and those above it that are missing. What was made stays if it fails. The number bounds how many
are missing. -/
def makeDirectoriesWithin : Nat → Path → FileTree → Except FileFault Unit × FileTree
  | depth, path, tree =>
    if path.text.isEmpty then (.ok (), tree)
    else
      match tree.makeDirectory path with
      | .ok tree => (.ok (), tree)
      | .error .notFound =>
        match depth, path.parent with
        | depth + 1, some parent =>
          match makeDirectoriesWithin depth parent tree with
          | (.error fault, tree) => (.error fault, tree)
          | (.ok (), tree) =>
            match tree.makeDirectory path with
            | .ok tree => (.ok (), tree)
            | .error fault => if tree.isDirectory path then (.ok (), tree) else (.error fault, tree)
        | _, _ => (.error .notFound, tree)
      | .error fault => if tree.isDirectory path then (.ok (), tree) else (.error fault, tree)

def makeDirectories (tree : FileTree) (path : Path) : Except FileFault Unit × FileTree :=
  makeDirectoriesWithin path.components.length path tree

def pathBelow (directory : Path) (below : List String) : Path :=
  below.foldl (fun (path : Path) name => path.push ⟨name⟩) directory

def filesBelow (tree : FileTree) (directory : Path) : List Path :=
  match tree.resolve directory with
  | .error _ => []
  | .ok place =>
    let found := tree.entries.filterMap fun (entry, node) =>
      match node with
      | .file _ => if place.isPrefixOf entry then some (pathBelow directory (entry.drop place.length)) else none
      | .directory => none
    found.mergeSort Path.isBefore

def texts (tree : FileTree) : List String :=
  tree.entries.filterMap fun (_, node) =>
    match node with
    | .file content => String.fromUTF8? content
    | .directory => none

def loadModule (tree : FileTree) (directory : Path) (extension name : String) : Except Failure LoadedModule :=
  let path := directory.push (.ofModule name extension)
  match tree.readText path with
  | .ok source => .ok ⟨path, source⟩
  | .error .notFound => .error (.moduleNotFound name path)
  | .error fault => .error (.io fault)

theorem readText_mem (tree : FileTree) (path : Path) (text : String) (read : tree.readText path = .ok text) :
    text ∈ tree.texts := by
  unfold readText at read
  cases resolved : tree.resolve path with
  | error fault => simp [resolved, bind, Except.bind] at read
  | ok place =>
      simp only [resolved, bind, Except.bind] at read
      cases found : tree.find? place with
      | none => simp [found] at read
      | some node =>
          cases node with
          | directory => simp [found] at read
          | file content =>
              simp only [found] at read
              cases decoded : String.fromUTF8? content with
              | none => simp [decoded] at read
              | some same =>
                  simp only [decoded, Except.ok.injEq] at read
                  subst read
                  unfold find? at found
                  split at found
                  · simp at found
                  · obtain ⟨before, after, split, _⟩ := List.lookup_eq_some_iff.mp found
                    have member : (place, FileNode.file content) ∈ tree.entries := by simp [split]
                    exact List.mem_filterMap.mpr ⟨_, member, decoded⟩

theorem loadModule_source_mem (tree : FileTree) (directory : Path) (extension name : String) (loaded : LoadedModule)
    (found : tree.loadModule directory extension name = .ok loaded) : loaded.source ∈ tree.texts := by
  unfold loadModule at found
  cases read : tree.readText (directory.push (.ofModule name extension)) with
  | error fault =>
      simp only [read] at found
      cases fault <;> exact absurd found (by simp)
  | ok source =>
      simp only [read] at found
      have same : loaded.source = source := congrArg LoadedModule.source (Except.ok.inj found).symm
      exact same ▸ tree.readText_mem _ source read

def library (tree : FileTree) (directory : Path) (extension : String) : Library :=
  ⟨tree.loadModule directory extension, tree.texts, tree.loadModule_source_mem directory extension⟩

end FileTree
end LuaMinifier
