import LuaMinifier.FileTree
import LuaMinifier.Options
import LuaMinifier.Yaml

/-!
Options in a configuration file. Unknown keys are passed over; a known key may be given once.
-/

namespace LuaMinifier
namespace Config

/-- The value of a key, read by a reader, or a default if the key is missing. It fails if the key is given twice or
its value cannot be read. -/
def field? {α : Type} (fields : List (String × Yaml)) (key : String) (read : Yaml → Option α) (default : α) :
    Option α :=
  match fields.filter (·.1 = key) with
  | [] => some default
  | [(_, value)] => read value
  | _ => none

def options? (document : Yaml) : Option Options := do
  let fields ← document.fields?
  let fields ← field? fields "minifyOptions" Yaml.fields? []
  return {
    moduleMode := ← field? fields "moduleMode" Yaml.bool? false
    extension := ← field? fields "extension" Yaml.text? "lua"
    moduleRoot := ← field? fields "moduleRoot" Yaml.optionalText? none
    pragmaMarker := ← field? fields "pragmaMarker" Yaml.text? "#"
    sourceMap := ← field? fields "sourceMap" Yaml.bool? true
    inlineSourceMap := ← field? fields "inlineSourceMap" Yaml.bool? false
    sourcesContent := ← field? fields "sourcesContent" Yaml.bool? false
    outDir := ← field? fields "outDir" Yaml.optionalText? none
    extraModules := ← field? fields "include" (fun value => do (← value.items?).mapM Yaml.text?) []
  }

def parse? (source : String) : Option Options := (Yaml.parse? source).bind options?

def fileName : String := "luamin.yaml"

/-- A configuration file that spells out the default options. -/
def defaultText : String :=
  "minifyOptions:\n  moduleMode: false\n  extension: lua\n  moduleRoot: null\n  pragmaMarker: '#'\n" ++
    "  sourceMap: true\n  inlineSourceMap: false\n  sourcesContent: false\n  outDir: null\n  include: []\n"

def load (tree : FileTree) (path : Path) : Except Failure Options :=
  match tree.readText path with
  | .error fault => .error (.io fault)
  | .ok text =>
    match parse? text with
    | some options => .ok options
    | none => .error (.config .malformed)

def writeDefault (tree : FileTree) (path : Path) : Except Failure FileTree :=
  (tree.writeText path defaultText).mapError .io

end Config
end LuaMinifier
