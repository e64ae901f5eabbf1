import LuaMinifier.Options
import LuaMinifier.Path
import LuaMinifier.Text.Cut
import LuaMinifier.Text.WhiteSpace

/-!
Arguments of the command line. Options may stand anywhere among the files, each at most once; two dashes alone end
them. A value stands behind its option or is joined to it, and only a joined value may start with a dash.
-/

namespace LuaMinifier
namespace CommandLine

/-- Options that are given or not. -/
inductive Switch
  | moduleMode
  | noSourceMap
  | inlineSourceMap
  | sourcesContent
  | writeConfig
  | help
  | version
deriving DecidableEq, Repr

/-- Options that have a value. -/
inductive Setting
  | config
  | outDir
  | moduleRoot
  | extension
  | pragmaMarker
  | extraModules
deriving DecidableEq, Repr

inductive Flag
  | switch (switch : Switch)
  | setting (setting : Setting)
deriving DecidableEq, Repr

namespace Flag

def ofName? : String → Option Flag
  | "config" => some (.setting .config)
  | "out-dir" => some (.setting .outDir)
  | "module-mode" => some (.switch .moduleMode)
  | "module-root" => some (.setting .moduleRoot)
  | "extension" => some (.setting .extension)
  | "pragma-marker" => some (.setting .pragmaMarker)
  | "include" => some (.setting .extraModules)
  | "no-source-map" => some (.switch .noSourceMap)
  | "inline-source-map" => some (.switch .inlineSourceMap)
  | "sources-content" => some (.switch .sourcesContent)
  | "init" => some (.switch .writeConfig)
  | "help" => some (.switch .help)
  | "version" => some (.switch .version)
  | _ => none

def ofLetter? : Char → Option Flag
  | 'c' => some (.setting .config)
  | 'm' => some (.switch .moduleMode)
  | 'h' => some (.switch .help)
  | 'V' => some (.switch .version)
  | _ => none

end Flag

/-- Whether the value of an option is a path, which must not be empty. -/
def Setting.isPath : Setting → Bool
  | .config | .outDir | .moduleRoot => true
  | .extension | .pragmaMarker | .extraModules => false

/-- Why reading the arguments stops before their end. -/
inductive Stop
  | help
  | version
  | unknownOption (written : String)
  | missingValue (written : String)
  | unexpectedValue (written : String)
  | repeated (written : String)
  | emptyPath
deriving DecidableEq, Repr

/-- What was read so far. -/
structure Given where
  files : List Path
  switches : List Switch
  settings : List (Setting × String)
deriving DecidableEq, Repr

namespace Given

def empty : Given := ⟨[], [], []⟩

def addFile (given : Given) (text : String) : Except Stop Given :=
  if text.isEmpty then .error .emptyPath else .ok { given with files := given.files ++ [⟨text⟩] }

def addSwitch (given : Given) (switch : Switch) (written : String) : Except Stop Given :=
  match switch with
  | .help => .error .help
  | .version => .error .version
  | _ =>
    if given.switches.contains switch then .error (.repeated written)
    else .ok { given with switches := given.switches ++ [switch] }

def addSetting (given : Given) (setting : Setting) (written value : String) : Except Stop Given :=
  if setting.isPath && value.isEmpty then .error .emptyPath
  else if (given.settings.lookup setting).isSome then .error (.repeated written)
  else .ok { given with settings := given.settings ++ [(setting, value)] }

/-- Reads the letters behind one dash. The first option with a value takes what follows it; if nothing does, it waits
for the next argument. -/
def addLetters (given : Given) (written : String) : List Char → Except Stop (Given × Option Setting)
  | [] => .ok (given, none)
  | letter :: rest =>
    match Flag.ofLetter? letter with
    | none => .error (.unknownOption written)
    | some (.switch switch) => do
      let given ← given.addSwitch switch written
      given.addLetters written rest
    | some (.setting setting) =>
      match rest with
      | [] => .ok (given, some setting)
      | '=' :: value => do return (← given.addSetting setting written (String.ofList value), none)
      | value => do return (← given.addSetting setting written (String.ofList value), none)

/-- Reads an option behind two dashes, with a value behind the first equals sign. -/
def addNamed (given : Given) (written : String) (text : List Char) : Except Stop (Given × Option Setting) :=
  let value? :=
    match text.dropWhile (· ≠ '=') with
    | _ :: value => some (String.ofList value)
    | [] => none
  match Flag.ofName? (String.ofList (text.takeWhile (· ≠ '='))), value? with
  | none, _ => .error (.unknownOption written)
  | some (.switch _), some _ => .error (.unexpectedValue written)
  | some (.switch switch), none => do return (← given.addSwitch switch written, none)
  | some (.setting setting), some value => do return (← given.addSetting setting written value, none)
  | some (.setting setting), none => .ok (given, some setting)

/-- Reads one argument. The option that it gives back waits for its value. -/
def addArgument (given : Given) (argument : String) : Except Stop (Given × Option Setting) :=
  match argument.toList with
  | '-' :: '-' :: name => given.addNamed argument name
  | '-' :: letters@(_ :: _) => given.addLetters argument letters
  | _ => do return (← given.addFile argument, none)

def isValue (argument : String) : Bool := argument = "-" || argument.toList.head? ≠ some '-'

def addAll : Given → List String → Except Stop Given
  | given, [] => .ok given
  | given, argument :: rest =>
    if argument = "--" then rest.foldlM addFile given
    else
      match given.addArgument argument with
      | .error stop => .error stop
      | .ok (given, none) => given.addAll rest
      | .ok (given, some setting) =>
        match rest with
        | value :: further =>
          if isValue value then
            match given.addSetting setting argument value with
            | .error stop => .error stop
            | .ok given => given.addAll further
          else .error (.missingValue argument)
        | [] => .error (.missingValue argument)

def value? (given : Given) (setting : Setting) : Option String := given.settings.lookup setting

def switched (given : Given) (switch : Switch) (value : Bool) : Option Bool :=
  if given.switches.contains switch then some value else none

def moduleNames (text : String) : List String := ((cut ',' text).map trimSpace).filter (!·.isEmpty)

end Given

structure Arguments where
  files : List Path
  config : Option Path
  writeConfig : Bool
  overrides : Overrides
deriving DecidableEq, Repr

def Given.arguments (given : Given) : Arguments where
  files := given.files
  config := (given.value? .config).map (⟨·⟩)
  writeConfig := given.switches.contains .writeConfig
  overrides := {
    moduleMode := given.switched .moduleMode true
    extension := given.value? .extension
    moduleRoot := given.value? .moduleRoot
    pragmaMarker := given.value? .pragmaMarker
    sourceMap := given.switched .noSourceMap false
    inlineSourceMap := given.switched .inlineSourceMap true
    sourcesContent := given.switched .sourcesContent true
    outDir := given.value? .outDir
    extraModules := (given.value? .extraModules).map Given.moduleNames
  }

def Arguments.parse (arguments : List String) : Except Stop Arguments :=
  (Given.empty.addAll arguments).map Given.arguments

def usage : String :=
  "Usage: luamin [OPTIONS] [FILE]...\n\n" ++
  "Options:\n" ++
  "  -c, --config <FILE>           Path to luamin.yaml configuration file\n" ++
  "      --out-dir <DIR>           Output directory for minified files\n" ++
  "  -m, --module-mode             Bundle required modules into the output\n" ++
  "      --module-root <DIR>       Directory that module names are resolved against\n" ++
  "      --extension <EXT>         Source file extension (default: lua)\n" ++
  "      --pragma-marker <MARKER>  Comments starting with this marker are kept (default: #)\n" ++
  "      --include <MODULES>       Extra modules to bundle (comma-separated)\n" ++
  "      --no-source-map           Do not write source map files\n" ++
  "      --inline-source-map       Inline source map in output file\n" ++
  "      --sources-content         Embed source texts in the source map\n" ++
  "      --init                    Write a default luamin.yaml to the current directory\n" ++
  "  -h, --help                    Print help\n" ++
  "  -V, --version                 Print version\n"

def Stop.message : Stop → String
  | .help => "A minifier and bundler for Lua 5.3 sources\n\n" ++ usage
  | .version => "luamin 0.1.0\n"
  | .unknownOption written => "error: unexpected argument '" ++ written ++ "' found\n\n" ++ usage
  | .missingValue written => "error: a value is required for '" ++ written ++ "'\n\n" ++ usage
  | .unexpectedValue written => "error: unexpected value in '" ++ written ++ "'\n\n" ++ usage
  | .repeated written => "error: '" ++ written ++ "' cannot be used multiple times\n\n" ++ usage
  | .emptyPath => "error: a path must not be empty\n\n" ++ usage

/-- Asking for help or the version is no error. -/
def Stop.isError : Stop → Bool
  | .help | .version => false
  | _ => true

end CommandLine
end LuaMinifier
