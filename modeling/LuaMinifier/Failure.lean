import LuaMinifier.Path
import LuaMinifier.SyntaxError

/-!
Why a run fails, and how it is reported.
-/

namespace LuaMinifier

/-- Why a file or directory could not be used. -/
inductive FileFault
  | notFound
  | exists
  | notDirectory
  | isDirectory
  | invalidText
deriving DecidableEq, Repr

def FileFault.message : FileFault → String
  | .notFound => "No such file or directory (os error 2)"
  | .exists => "File exists (os error 17)"
  | .notDirectory => "Not a directory (os error 20)"
  | .isDirectory => "Is a directory (os error 21)"
  | .invalidText => "stream did not contain valid UTF-8"

inductive ConfigFault
  /-- The text of a configuration does not say what options are. -/
  | malformed
  /-- A path to bundle has no file name. -/
  | notModuleFile (path : Path)
deriving DecidableEq, Repr

def ConfigFault.message : ConfigFault → String
  | .malformed => "invalid configuration"
  | .notModuleFile path => "not a module file: " ++ path.text

inductive Failure
  | io (fault : FileFault)
  | parse (module : String) (error : SyntaxError)
  | moduleNotFound (name : String) (path : Path)
  | cyclicDependency (chain : List String)
  | config (fault : ConfigFault)
deriving DecidableEq, Repr

namespace Failure

def message : Failure → String
  | .io fault => "IO error: " ++ fault.message
  | .parse module error => "failed to parse module '" ++ module ++ "': " ++ error.message
  | .moduleNotFound name path => "module '" ++ name ++ "' not found (looked for " ++ path.text ++ ")"
  | .cyclicDependency chain => "cyclic module dependency: " ++ " -> ".intercalate chain
  | .config fault => "configuration error: " ++ fault.message

def messages (failure : Failure) : List String :=
  match failure with
  | .io fault => [failure.message, fault.message]
  | .parse _ error => [failure.message, error.message]
  | _ => [failure.message]

end Failure
end LuaMinifier
