import LuaMinifier.Text.Cut

/-!
Paths as texts. A path has a head, which is a slash, a leading point or nothing, and segments between slashes. Empty
segments and points among them mean nothing.
-/

namespace LuaMinifier

structure Path where
  text : String
deriving DecidableEq, Repr, Inhabited

namespace Path

inductive Head
  | none | root | current
deriving DecidableEq, Repr

def Head.text : Head → String
  | .none => ""
  | .root => "/"
  | .current => "."

def splitHead : List Char → Head × List Char
  | '/' :: rest => (.root, rest)
  | ['.'] => (.current, [])
  | '.' :: '/' :: rest => (.current, '/' :: rest)
  | text => (.none, text)

def head (path : Path) : Head := (splitHead path.text.toList).1

def segments (path : Path) : List String :=
  (cutChars '/' (splitHead path.text.toList).2).map String.ofList

/-- Segments that lead nowhere. -/
def isTrivial (segment : String) : Bool := segment = "" || segment = "."

/-- The segments up to the last one that means something. -/
def trimSegments (segments : List String) : List String := (segments.reverse.dropWhile isTrivial).reverse

def ofSegments (head : Head) (segments : List String) : Path := ⟨head.text ++ "/".intercalate segments⟩

def isAbsolute (path : Path) : Bool := path.head = .root

/-- A part of a path that means something. -/
inductive Component
  | root
  | current
  | parent
  | normal (name : String)
deriving DecidableEq, Repr

namespace Component

def ofSegment (segment : String) : Component := if segment = ".." then .parent else .normal segment

/-- The place of a kind of component in the order of paths. -/
def rank : Component → Nat
  | .root => 0
  | .current => 1
  | .parent => 2
  | .normal _ => 3

def name : Component → String
  | .normal name => name
  | _ => ""

def isLess (first second : Component) : Bool :=
  first.rank < second.rank || (first.rank = second.rank && decide (first.name < second.name))

end Component

def components (path : Path) : List Component :=
  let start :=
    match path.head with
    | .none => []
    | .root => [.root]
    | .current => [.current]
  start ++ (path.segments.filter (!isTrivial ·)).map Component.ofSegment

def isLessBy : List Component → List Component → Bool
  | _, [] => false
  | [], _ :: _ => true
  | first :: rest, second :: others =>
    first.isLess second || (first = second && isLessBy rest others)

def isBefore (first second : Path) : Bool := !isLessBy second.components first.components

def startsWith (path root : Path) : Bool := root.components.isPrefixOf path.components

/-- A path behind another. An absolute path replaces what stands before it. -/
def push (path : Path) (further : Path) : Path :=
  if further.isAbsolute then further
  else if path.text.isEmpty || path.text.toList.getLast? = some '/' then ⟨path.text ++ further.text⟩
  else ⟨path.text ++ "/" ++ further.text⟩

/-- The last segment that means something, unless it leads upwards. -/
def fileName (path : Path) : Option String :=
  match (trimSegments path.segments).getLast? with
  | some segment => if segment = ".." then none else some segment
  | none => none

/-- The parts of a file name before and behind its last point. A name without a point, or with only one at its start,
has no extension. -/
def splitName (name : String) : String × Option String :=
  let reversed := name.toList.reverse
  let extension := (reversed.takeWhile (· ≠ '.')).reverse
  match reversed.dropWhile (· ≠ '.') with
  | _ :: stem@(_ :: _) => (String.ofList stem.reverse, some (String.ofList extension))
  | _ => (name, none)

def fileStem (path : Path) : Option String := path.fileName.map fun name => (splitName name).1

def extension (path : Path) : Option String := path.fileName.bind fun name => (splitName name).2

def parent (path : Path) : Option Path :=
  match (trimSegments path.segments).reverse with
  | _ :: earlier => some (ofSegments path.head (trimSegments earlier.reverse))
  | [] => if path.head = .current then some ⟨""⟩ else none

/-- The path with another extension on its file name; without a file name it stays as it is. -/
def withExtension (path : Path) (extension : String) : Path :=
  match path.fileStem with
  | none => path
  | some stem =>
    let base := ofSegments path.head ((trimSegments path.segments).dropLast ++ [stem])
    if extension.isEmpty then base else ⟨base.text ++ "." ++ extension⟩

/-- The path of a module: the points in its name separate directories. -/
def ofModule (name extension : String) : Path :=
  ((cut '.' name).foldl (fun (path : Path) part => path.push ⟨part⟩) ⟨""⟩).withExtension extension

def outputName (input : Path) (extension : String) : Option String :=
  input.fileStem.map fun stem => stem ++ ".min." ++ extension

def mapName (input : Path) (extension : String) : Option String :=
  input.fileStem.map fun stem => stem ++ "." ++ extension ++ ".map"

end Path
end LuaMinifier
