import LuaMinifier.Bundle.Graph
import LuaMinifier.Bundle.Loader
import LuaMinifier.Minify
import LuaMinifier.Require

/-!
Bundling a module with all that it requires. Modules are first found, depth first, so that every global name is known
before the first short name is given; then each is printed once, in the order in which they were found.
-/

namespace LuaMinifier

/-- What a bundler keeps between runs. -/
structure Bundler where
  session : Session
  graph : ModuleGraph
  entry : Option String

/-- Work of a bundler that can fail; what was done before stays. -/
abbrev Bundling := ExceptT Failure (StateM Bundler)

namespace Bundler

def empty : Bundler := ⟨.empty, .empty, none⟩

def modifyGraph (change : ModuleGraph → ModuleGraph) : Bundling Unit :=
  modify fun bundler => { bundler with graph := change bundler.graph }

/-- Records a module that was read, and gives the names of the modules it requires. -/
def record (moduleMode : Bool) (name : String) (loaded : LoadedModule) (chunk : Chunk) : Bundling (List String) := do
  modify fun bundler => { bundler with session := bundler.session.reserve chunk.globals }
  modifyGraph (·.setStage name fun _ => .generating ⟨loaded.path, loaded.source, chunk⟩)
  return if moduleMode then chunk.requires else []

def read (library : Library) (name : String) (preloaded : Option LoadedModule) :
    Except Failure (LoadedModule × Chunk) := do
  let loaded ← match preloaded with
    | some loaded => pure loaded
    | none => library.load name
  let chunk ← parseModule name loaded.source
  return (loaded, chunk)

/-- Finds a module and all that it requires. The chain holds the modules whose requires are being followed; the
first number bounds its length. A chain longer than there are names to require would have met one twice. -/
def load (library : Library) (moduleMode : Bool) :
    Nat → List String → String → Option LoadedModule → Bundling Unit
  | 0, chain, name, _ => throw (.cyclicDependency (chain ++ [name]))
  | depth + 1, chain, name, preloaded => do
    if chain.contains name then throw (.cyclicDependency (chain ++ [name]))
    if (← get).graph.contains name then return
    modifyGraph (·.request name)
    let discover : Bundling Unit := do
      let (loaded, chunk) ← read library name preloaded
      let requires ← record moduleMode name loaded chunk
      requires.forM fun required => load library moduleMode depth (chain ++ [name]) required none
    tryCatch discover fun failure => do
      modifyGraph (·.setStage name Stage.fail)
      throw failure

/-- The modules with everything printed that was read. -/
def printAll : List Module → StateM Session (List Module)
  | [] => return []
  | module :: rest => do
    match module.stage with
    | .generating parsed =>
      let body ← parsed.chunk.print module.name
      return { module with stage := .done parsed body } :: (← printAll rest)
    | _ => return module :: (← printAll rest)

def printModules (bundler : Bundler) : Bundler :=
  let (modules, session) := (printAll bundler.graph.modules).run bundler.session
  { bundler with session := session, graph := ⟨modules⟩ }

/-- The code of a bundle: the loader in module mode, the body of the entry, and its pragmas in front. -/
def assemble (options : Options) (entry : String) (bundler : Bundler) : Fragment × Bundler :=
  let (start, session) :=
    if options.moduleMode then
      let (code, session) := (loader (bundler.graph.bodiesExcept entry)).run bundler.session
      (Fragment.empty.append code, session)
    else (Fragment.empty, bundler.session)
  let stage? := (bundler.graph.find? entry).map (·.stage)
  let code :=
    match stage?.bind Stage.body? with
    | some body => start.join body
    | none => start
  let kept := (stage?.bind Stage.parsed?).map (pragmas options.pragmaMarker ·.chunk.comments)
  (code.withPragmas entry (kept.getD []), { bundler with session := session })

def describe (options : Options) (graph : ModuleGraph) (name : String) : SourceEntry :=
  match graph.find? name with
  | some module => ⟨module.path.text, if options.sourcesContent then some module.source else none⟩
  | none => ⟨name, none⟩

/-- No chain of different modules that require one another is longer than this. -/
def depthBound (library : Library) (options : Options) (preloaded : Option LoadedModule) : Nat :=
  library.requestBound + (preloaded.map (·.source.utf8ByteSize)).getD 0 + options.extraModules.length + 2

/-- Bundles an entry module. Its text may be at hand already; what it requires comes from the library. -/
def run (library : Library) (options : Options) (entry : String) (preloaded : Option LoadedModule)
    (file : Option String) : Bundling Output := do
  modify fun bundler => { bundler with entry := some entry }
  let depth := depthBound library options preloaded
  load library options.moduleMode depth [] entry preloaded
  if options.moduleMode then
    options.extraModules.forM fun extra => load library options.moduleMode depth [] extra none
  modify printModules
  let code ← modifyGet (assemble options entry)
  return code.finalize file (describe options (← get).graph)

end Bundler
end LuaMinifier
