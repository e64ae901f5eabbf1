import LuaMinifier.Name.Odometer
import LuaMinifier.Scope
import Std.Data.HashMap
import Std.Data.HashSet

/-!
Sessions hand out short names. A name given once is kept for its variable, and no name is given that is a keyword,
reserved for a global variable, or given before.
-/

namespace LuaMinifier

/-- A name that is never changed: the implicit parameter of methods. -/
def preservedName : String := "self"

structure Session where
  odometer : Odometer
  reserved : Std.HashSet String
  assigned : Std.HashSet String
  bindings : Std.HashMap String String

namespace Session

def empty : Session := ⟨.start, ∅, ∅, ∅⟩

def reserve (session : Session) (names : List String) : Session :=
  { session with reserved := names.foldl (·.insert ·) session.reserved }

def withReserved (names : List String) : Session := empty.reserve names

def isReserved (session : Session) (name : String) : Bool := isKeyword name || session.reserved.contains name

def isTaken (session : Session) (name : String) : Bool :=
  session.isReserved name || session.assigned.contains name || name == preservedName

/-- The first name that the odometer reaches in some number of steps and that is not taken. -/
def search (session : Session) : Nat → Odometer → Odometer
  | 0, odometer => odometer
  | steps + 1, odometer =>
    let next := odometer.advance
    if session.isTaken next.current then session.search steps next else next

/-- More steps than names are taken: one of the names reached must be free. -/
def enoughSteps (session : Session) : Nat :=
  Keyword.all.length + session.reserved.size + session.assigned.size + 2

def fresh (session : Session) : Session × String :=
  let odometer := session.search session.enoughSteps session.odometer
  let name := odometer.current
  ({ session with odometer := odometer, assigned := session.assigned.insert name }, name)

def rename (session : Session) (name : String) : Session × String :=
  if name = preservedName then (session, name)
  else
    match session.bindings[name]? with
    | some short => (session, short)
    | none =>
      let (session, short) := session.fresh
      ({ session with bindings := session.bindings.insert name short }, short)

def binding? (session : Session) (name : String) : Option String := session.bindings[name]?

def bindingCount (session : Session) : Nat := session.bindings.size

end Session

/-- An occurrence as it is printed: its text, and the name that the source uses. -/
structure Spelling where
  text : String
  name : String
  position : Position
deriving DecidableEq, Repr

/-- Locals get a short name; globals keep theirs. -/
def Identifier.spell (identifier : Identifier) : StateM Session Spelling := fun session =>
  if identifier.isLocal then
    let (session, short) := session.rename identifier.name
    (⟨short, identifier.name, identifier.position⟩, session)
  else (⟨identifier.name, identifier.name, identifier.position⟩, session)

def Block.spell (body : Block Identifier) : StateM Session (Block Spelling) := body.mapM Identifier.spell

end LuaMinifier
