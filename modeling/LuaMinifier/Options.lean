/-!
Options of a run, and the values that a user gives to override them.
-/

namespace LuaMinifier

structure Options where
  /-- Bundle required modules behind a generated loader. -/
  moduleMode : Bool := false
  /-- The extension of source files. -/
  extension : String := "lua"
  /-- The directory in which modules are looked up. -/
  moduleRoot : Option String := none
  /-- Comments that begin with this marker are kept. -/
  pragmaMarker : String := "#"
  /-- Write a map beside each output. -/
  sourceMap : Bool := true
  /-- Write the map into the output. -/
  inlineSourceMap : Bool := false
  /-- Put the text of every source into the map. -/
  sourcesContent : Bool := false
  /-- The directory for outputs. -/
  outDir : Option String := none
  /-- Modules that are bundled even if nothing requires them. -/
  extraModules : List String := []
deriving DecidableEq, Repr

/-- Values for options; what is not given stays as it is. -/
structure Overrides where
  moduleMode : Option Bool := none
  extension : Option String := none
  moduleRoot : Option String := none
  pragmaMarker : Option String := none
  sourceMap : Option Bool := none
  inlineSourceMap : Option Bool := none
  sourcesContent : Option Bool := none
  outDir : Option String := none
  extraModules : Option (List String) := none
deriving DecidableEq, Repr

/-- Options with every given value in place of the old one. -/
def Options.merge (options : Options) (overrides : Overrides) : Options where
  moduleMode := overrides.moduleMode.getD options.moduleMode
  extension := overrides.extension.getD options.extension
  moduleRoot := overrides.moduleRoot <|> options.moduleRoot
  pragmaMarker := overrides.pragmaMarker.getD options.pragmaMarker
  sourceMap := overrides.sourceMap.getD options.sourceMap
  inlineSourceMap := overrides.inlineSourceMap.getD options.inlineSourceMap
  sourcesContent := overrides.sourcesContent.getD options.sourcesContent
  outDir := overrides.outDir <|> options.outDir
  extraModules := overrides.extraModules.getD options.extraModules

end LuaMinifier
