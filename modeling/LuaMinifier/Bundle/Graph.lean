import LuaMinifier.Bundle.Library
import LuaMinifier.Chunk
import LuaMinifier.Fragment

/-!
Module graphs: the modules that a bundler has met, in the order in which it met them, and how far each has come.
-/

namespace LuaMinifier

structure ParsedModule where
  path : Path
  source : String
  chunk : Chunk

/-- How far a module has come. Only a finished module has a printed body. -/
inductive Stage
  /-- Asked for, and not read yet. -/
  | pending
  /-- Read, and not printed yet. -/
  | generating (parsed : ParsedModule)
  | done (parsed : ParsedModule) (body : Fragment)
  /-- Not read, or read while a module that it requires failed. -/
  | failed (parsed : Option ParsedModule)

namespace Stage

def parsed? : Stage → Option ParsedModule
  | .pending => none
  | .generating parsed => some parsed
  | .done parsed _ => some parsed
  | .failed parsed => parsed

def body? : Stage → Option Fragment
  | .done _ body => some body
  | _ => none

def fail (stage : Stage) : Stage := .failed stage.parsed?

end Stage

structure Module where
  name : String
  stage : Stage

namespace Module

/-- The path a module was read from; it is empty until then. -/
def path (module : Module) : Path := (module.stage.parsed?.map (·.path)).getD ⟨""⟩

/-- The text of a module; it is empty until it was read. -/
def source (module : Module) : String := (module.stage.parsed?.map (·.source)).getD ""

end Module

/-- Modules with different names. -/
structure ModuleGraph where
  modules : List Module

namespace ModuleGraph

def empty : ModuleGraph := ⟨[]⟩

def find? (graph : ModuleGraph) (name : String) : Option Module := graph.modules.find? (·.name = name)

def contains (graph : ModuleGraph) (name : String) : Bool := graph.modules.any (·.name = name)

def size (graph : ModuleGraph) : Nat := graph.modules.length

def request (graph : ModuleGraph) (name : String) : ModuleGraph := ⟨graph.modules ++ [⟨name, .pending⟩]⟩

def setStage (graph : ModuleGraph) (name : String) (change : Stage → Stage) : ModuleGraph :=
  ⟨graph.modules.map fun module =>
    if module.name = name then { module with stage := change module.stage } else module⟩

def bodiesExcept (graph : ModuleGraph) (entry : String) : List (String × Fragment) :=
  (graph.modules.filter (·.name ≠ entry)).filterMap fun module =>
    module.stage.body?.map fun body => (module.name, body)

end ModuleGraph
end LuaMinifier
