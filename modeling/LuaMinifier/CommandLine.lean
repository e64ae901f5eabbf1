import LuaMinifier.Bundle.File
import LuaMinifier.CommandLine.Arguments
import LuaMinifier.CommandLine.Problem
import LuaMinifier.Config

/-!
A run of the command line on a tree of files. All inputs are minified before the first output is written; then the
outputs are written in the order of the inputs. An input that fails is reported and does not stop the others.
-/

namespace LuaMinifier
namespace CommandLine

/-- What a run prints and leaves behind. -/
structure Report where
  exitCode : Nat
  output : String
  errors : String
  files : FileTree
  /-- Where modules were looked for that are not there. -/
  missing : List Path := []

/-- Work on files that can fail; what was done before stays. -/
abbrev Writing := ExceptT Problem (StateM FileTree)

/-- The options in the configuration file: the one that was named, else the default one if it is there. -/
def configured (tree : FileTree) (config : Option Path) : Except Problem Options :=
  let default : Path := ⟨Config.fileName⟩
  match config with
  | some path => (Config.load tree path).mapError (.loadNamedConfig path)
  | none =>
    if tree.exists? default then (Config.load tree default).mapError (.loadConfig default)
    else .ok {}

/-- Whether a file found in a directory is a source: it has the extension and is no output. -/
def isSource (extension : String) (path : Path) : Bool :=
  path.extension = some extension && !(".min." ++ extension).toList.isSuffixOf path.text.toList

/-- The files to minify: directories stand for the sources below them. -/
def inputs (tree : FileTree) (extension : String) (paths : List Path) : List Path :=
  paths.flatMap fun path =>
    if tree.isDirectory path then (tree.filesBelow path).filter (isSource extension) else [path]

def minifyInput (tree : FileTree) (options : Options) (path : Path) : Except Problem Output :=
  if options.moduleMode then (tree.bundle path options).mapError (.bundleFile path)
  else do
    let source ← (tree.readText path).mapError (.readFile path)
    let name := path.fileName.getD path.text
    (minify name source options (path.outputName options.extension)).mapError (.minifyFile path)

def outputDirectory (options : Options) (path : Path) : Path :=
  match options.outDir with
  | some directory => ⟨directory⟩
  | none => path.parent.getD ⟨""⟩

def writeFile (path : Path) (text : String) : Writing Unit := do
  match (← get).writeText path text with
  | .ok tree => set tree
  | .error fault => throw (.writeFile path fault)

def makeDirectory (path : Path) : Writing Unit := do
  let (made, tree) := (← get).makeDirectories path
  set tree
  match made with
  | .ok () => return
  | .error fault => throw (.makeDirectory path fault)

/-- Writes the outputs of an input: the code, with its map inside, beside it or nowhere. -/
def writeOutput (options : Options) (path : Path) (output : Output) : Writing Unit := do
  let directory := outputDirectory options path
  makeDirectory directory
  match path.outputName options.extension, path.mapName options.extension with
  | some outputName, some mapName =>
    let ending ←
      if options.inlineSourceMap then pure ("\n" ++ output.map.toComment)
      else if options.sourceMap then do
        writeFile (directory.push ⟨mapName⟩) output.map.toJson
        pure ("\n" ++ SourceMap.urlComment mapName)
      else pure ""
    writeFile (directory.push ⟨outputName⟩) (output.code ++ ending ++ "\n")
  | _, _ => throw (.noFileName path)

/-- Writes the outputs that were made, and gives the problems, in the order of the inputs. -/
def writeAll (options : Options) : List (Path × Except Problem Output) → StateM FileTree (List Problem)
  | [] => return []
  | (path, made) :: rest => do
    let written ←
      match made with
      | .ok output => (writeOutput options path output).run
      | .error problem => pure (.error problem)
    let problems ← writeAll options rest
    return match written with
      | .ok () => problems
      | .error problem => problem :: problems

def process (options : Options) (paths : List Path) : StateM FileTree (List Problem) := do
  let tree ← get
  writeAll options (paths.map fun path => (path, minifyInput tree options path))

def stopped (errors : String) (tree : FileTree) : Report :=
  { exitCode := 1, output := "", errors := errors, files := tree }

def execute (arguments : Arguments) (tree : FileTree) : Report :=
  if arguments.writeConfig then
    match Config.writeDefault tree ⟨Config.fileName⟩ with
    | .ok tree => { exitCode := 0, output := "Created " ++ Config.fileName ++ "\n", errors := "", files := tree }
    | .error failure => stopped (Problem.writeConfig ⟨Config.fileName⟩ failure).listing tree
  else
    match configured tree arguments.config with
    | .error problem => stopped problem.listing tree
    | .ok loaded =>
      let options := loaded.merge arguments.overrides
      match inputs tree options.extension arguments.files with
      | [] => stopped "Error: No input files specified. Use --help for usage information.\n" tree
      | paths =>
        let (problems, tree) := (process options paths).run tree
        {
          exitCode := if problems.isEmpty then 0 else 1
          output := ""
          errors := String.join (problems.map Problem.line)
          files := tree
          missing := problems.filterMap Problem.missing?
        }

def run (arguments : List String) (tree : FileTree) : Report :=
  match Arguments.parse arguments with
  | .ok arguments => execute arguments tree
  | .error stop =>
    if stop.isError then { exitCode := 2, output := "", errors := stop.message, files := tree }
    else { exitCode := 0, output := stop.message, errors := "", files := tree }

end CommandLine
end LuaMinifier
