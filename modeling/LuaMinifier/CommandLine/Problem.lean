import LuaMinifier.Failure

/-!
What can go wrong in a run of the command line, and how it is reported.
-/

namespace LuaMinifier
namespace CommandLine

inductive Problem
  | loadNamedConfig (path : Path) (failure : Failure)
  | loadConfig (path : Path) (failure : Failure)
  | writeConfig (path : Path) (failure : Failure)
  | readFile (path : Path) (fault : FileFault)
  | minifyFile (path : Path) (failure : Failure)
  | bundleFile (path : Path) (failure : Failure)
  | makeDirectory (path : Path) (fault : FileFault)
  | noFileName (path : Path)
  | writeFile (path : Path) (fault : FileFault)
deriving DecidableEq, Repr

namespace Problem

def context : Problem → String
  | .loadNamedConfig path _ => "failed to load config file " ++ path.text
  | .loadConfig path _ => "failed to load " ++ path.text
  | .writeConfig path _ => "failed to write " ++ path.text
  | .readFile path _ => "failed to read " ++ path.text
  | .minifyFile path _ => "failed to minify " ++ path.text
  | .bundleFile path _ => "failed to bundle " ++ path.text
  | .makeDirectory path _ => "failed to create " ++ path.text
  | .noFileName path => "no file name in " ++ path.text
  | .writeFile path _ => "failed to write " ++ path.text

def causes : Problem → List String
  | .loadNamedConfig _ failure | .loadConfig _ failure | .writeConfig _ failure => failure.messages
  | .minifyFile _ failure | .bundleFile _ failure => failure.messages
  | .readFile _ fault | .makeDirectory _ fault | .writeFile _ fault => [fault.message]
  | .noFileName _ => []

/-- Where a module was looked for that is not there. -/
def missing? : Problem → Option Path
  | .bundleFile _ (.moduleNotFound _ path) => some path
  | _ => none

def line (problem : Problem) : String :=
  "Error: " ++ ": ".intercalate (problem.context :: problem.causes) ++ "\n"

/-- A problem that ends the run, with each cause on a line; several causes are numbered. -/
def listing (problem : Problem) : String :=
  let lines :=
    match problem.causes with
    | [] => []
    | [cause] => ["    " ++ cause ++ "\n"]
    | causes => causes.zipIdx.map fun (cause, index) => "    " ++ toString index ++ ": " ++ cause ++ "\n"
  "Error: " ++ problem.context ++ "\n" ++ (if lines.isEmpty then "" else "\nCaused by:\n" ++ String.join lines)

end Problem
end CommandLine
end LuaMinifier
