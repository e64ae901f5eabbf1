import LuaMinifier.Fragment
import LuaMinifier.Name.Session

/-!
The loader in front of a bundle: a local `require` that runs the body of each bundled module at most once, keeps its
result, and passes every other name on to the `require` of the host.
-/

namespace LuaMinifier

/-- How a character of a module's name is written in a string. -/
def escapeInName (character : Char) : List Char :=
  if character = '\\' || character = '"' then ['\\', character]
  else if character = '\n' then ['\\', 'n']
  else [character]

def quoteName (name : String) : String := String.ofList ('"' :: name.toList.flatMap escapeInName ++ ['"'])

namespace Loader

/-- The three variables of a loader: the host's `require`, the table of results, and the name asked for. -/
structure Variables where
  host : String
  loaded : String
  name : String
deriving DecidableEq, Repr

def Variables.slot (names : Variables) : String := names.loaded ++ "[" ++ names.name ++ "]"

/-- Writes pieces one behind the other, with spaces where they are needed. -/
def joinAll (fragment : Fragment) (pieces : List Piece) : Fragment := pieces.foldl Fragment.join fragment

/-- The loader up to the place where modules are told apart. -/
def opening (names : Variables) : Fragment :=
  let slot := names.slot
  joinAll (Fragment.empty.append "local")
    [.text (names.host ++ "," ++ names.loaded ++ "=require"), "local", "function",
      .text ("require(" ++ names.name ++ ")"),
      .text (names.loaded ++ "=" ++ names.loaded ++ " or\x7b\x7d"),
      "if", .text (slot ++ "~=nil"), "then", "return", .text slot, "end"]

def branch (names : Variables) (loader : Fragment) (name : String) (body : Fragment) : Fragment :=
  let slot := names.slot
  joinAll loader
    ["if", .text (names.name ++ "==" ++ quoteName name), "then", .text (slot ++ "=(function(...)"), body.toPiece,
      .text ("end)(" ++ names.name ++ ")"), "if", .text (slot ++ "==nil"), "then", .text (slot ++ "=true"),
      "end", "return", .text slot, "end"]

def closing (names : Variables) (loader : Fragment) : Fragment :=
  joinAll loader ["return", .text (names.host ++ "(" ++ names.name ++ ")"), "end"]

/-- The loader of some modules, each with its printed body. -/
def ofModules (names : Variables) (modules : List (String × Fragment)) : Fragment :=
  closing names
    (modules.foldl (fun loader (name, body) => branch names loader name body) (opening names))

end Loader

def Session.loaderVariables : StateM Session Loader.Variables := fun session =>
  let (session, host) := session.fresh
  let (session, loaded) := session.fresh
  let (session, name) := session.fresh
  (⟨host, loaded, name⟩, session)

/-- The loader of some modules. Its names are new in the session. -/
def loader (modules : List (String × Fragment)) : StateM Session Fragment :=
  return Loader.ofModules (← Session.loaderVariables) modules

end LuaMinifier
