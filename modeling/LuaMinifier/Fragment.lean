import LuaMinifier.Separator

/-!
Fragments: code under construction. A fragment is a tree of texts; its nodes can remember which place of which
module they were made from. Seen from outside a fragment is the text of its leaves.
-/

namespace LuaMinifier

/-- A place in the source of a module. -/
structure Origin where
  module : String
  position : Position
deriving DecidableEq, Repr

/-- A part of a fragment: nothing, a text, a node with what is in it, or one part behind another. A node can have an
origin, and the name that the source uses for it. -/
inductive Piece
  | empty
  | text (written : String)
  | node (origin : Option Origin) (name : Option String) (body : Piece)
  | append (first second : Piece)
deriving Repr

instance : Coe String Piece := ⟨.text⟩

namespace Piece

/-- One part behind another; nothing is kept of an empty first part. -/
def behind : Piece → Piece → Piece
  | .empty, second => second
  | first, second => .append first second

def first : Piece → Option Char
  | .empty => none
  | .text written => written.toList.head?
  | .node _ _ body => body.first
  | .append start rest =>
    match start.first with
    | some character => some character
    | none => rest.first

def tail : Piece → Tail
  | .empty => .none
  | .text written => .ofChars written.toList
  | .node _ _ body => body.tail
  | .append start rest =>
    match rest.tail with
    | ⟨some last, some beforeLast⟩ => ⟨some last, some beforeLast⟩
    | end_ => start.tail.append end_

end Piece

/-- A node that is still being written to. -/
structure Fragment where
  origin : Option Origin
  name : Option String
  body : Piece
deriving Repr

namespace Fragment

def empty : Fragment := ⟨none, none, .empty⟩

def ofText (text : String) : Fragment := ⟨none, none, .text text⟩

def ofOrigin (origin : Origin) : Fragment := ⟨some origin, none, .empty⟩

def toPiece (fragment : Fragment) : Piece := .node fragment.origin fragment.name fragment.body

instance : Coe Fragment Piece := ⟨toPiece⟩

def withName (fragment : Fragment) (name : String) : Fragment := { fragment with name := some name }

def append (fragment : Fragment) (piece : Piece) : Fragment :=
  { fragment with body := fragment.body.behind piece }

def prepend (fragment : Fragment) (piece : Piece) : Fragment :=
  { fragment with body := piece.behind fragment.body }

def first (fragment : Fragment) : Option Char := fragment.body.first

def tail (fragment : Fragment) : Tail := fragment.body.tail

def last (fragment : Fragment) : Option Char := fragment.tail.last

def isEmpty (fragment : Fragment) : Bool := fragment.first.isNone

/-- Writes a piece at the end, behind a space if the two would otherwise fuse. -/
def join (fragment : Fragment) (piece : Piece) : Fragment :=
  if needsSeparator fragment.tail piece.first then (fragment.append " ").append piece
  else fragment.append piece

end Fragment

/-- What a fragment is when read from left to right: texts, and marks where a node with an origin starts. -/
inductive Event
  | text (written : String)
  | mark (origin : Origin) (name : Option String)
deriving DecidableEq, Repr

/-- The events of a part, in front of those that follow it. -/
def Piece.events : Piece → List Event → List Event
  | .empty, rest => rest
  | .text written, rest => .text written :: rest
  | .node none _ body, rest => body.events rest
  | .node (some origin) name body, rest => .mark origin name :: body.events rest
  | .append first second, rest => first.events (second.events rest)

def Event.written : Event → String
  | .text written => written
  | .mark .. => ""

def Piece.toText (piece : Piece) : String := String.join ((piece.events []).map Event.written)

namespace Fragment

def events (fragment : Fragment) : List Event := fragment.toPiece.events []

def toText (fragment : Fragment) : String := fragment.toPiece.toText

end Fragment
end LuaMinifier
