import LuaMinifier.Position
import LuaMinifier.SourceMap.Vlq
import LuaMinifier.Text.Json

/-!
Source maps, version 3: where each part of a generated text comes from. A builder records mappings while the text is
written; the finished map holds them as a list of differences in text form.
-/

namespace LuaMinifier

/-- A place in the generated text (line and byte column, both from zero), and the place in a source it comes from. -/
structure Mapping where
  generatedLine : Nat
  generatedColumn : Nat
  source : Nat
  line : Nat
  column : Nat
  name : Option String
deriving DecidableEq, Repr

/-- A finished source map. A source without known content is listed as such once any content is known. -/
structure SourceMap where
  file : Option String
  sources : List String
  sourcesContent : List (Option String)
  names : List String
  mappings : String
deriving DecidableEq, Repr

namespace SourceMap

def version : Nat := 3

/-- The values that the next segment is relative to. -/
structure Cursor where
  generatedLine : Nat
  generatedColumn : Nat
  source : Nat
  line : Nat
  column : Nat
  name : Nat
deriving DecidableEq, Repr

def Cursor.start : Cursor := ⟨0, 0, 0, 0, 0, 0⟩

/-- The cursor when a line of the generated text begins: columns count from zero again. -/
def Cursor.onLine (cursor : Cursor) (line : Nat) : Cursor :=
  if cursor.generatedLine < line then { cursor with generatedLine := line, generatedColumn := 0 } else cursor

/-- The cursor behind a segment. A segment without a name leaves the name as it was. -/
def Cursor.behind (cursor : Cursor) (mapping : Mapping) (name : Option Nat) : Cursor :=
  ⟨mapping.generatedLine, mapping.generatedColumn, mapping.source, mapping.line, mapping.column,
    name.getD cursor.name⟩

def difference (new old : Nat) : List Char := Vlq.encode ((new : Int) - old)

/-- One segment: four differences, and a fifth for a name. -/
def segment (cursor : Cursor) (mapping : Mapping) (name : Option Nat) : List Char :=
  difference mapping.generatedColumn cursor.generatedColumn ++ difference mapping.source cursor.source
    ++ difference mapping.line cursor.line ++ difference mapping.column cursor.column
    ++ (name.map fun index => difference index cursor.name).getD []

/-- What stands in front of a segment: a semicolon for each new line, or a comma behind another segment of the
same line. -/
def separation (cursor : Cursor) (isFirst : Bool) (line : Nat) : List Char :=
  if cursor.generatedLine < line then List.replicate (line - cursor.generatedLine) ';'
  else if isFirst then [] else [',']

def encodeFrom (names : List String) (cursor : Cursor) (isFirst : Bool) : List Mapping → List Char
  | [] => []
  | mapping :: rest =>
    let name := mapping.name.map (names.idxOf ·)
    separation cursor isFirst mapping.generatedLine
      ++ segment (cursor.onLine mapping.generatedLine) mapping name
      ++ encodeFrom names (cursor.behind mapping name) false rest

def encode (names : List String) (mappings : List Mapping) : String :=
  String.ofList (encodeFrom names .start true mappings)

def toJson (map : SourceMap) : String :=
  Json.object <|
    [("version", toString version)]
      ++ (map.file.map fun file => ("file", Json.string file)).toList
      ++ [("sources", Json.array (map.sources.map Json.string))]
      ++ (if map.sourcesContent.isEmpty then []
          else [("sourcesContent", Json.array (map.sourcesContent.map Json.stringOrNull))])
      ++ [("names", Json.array (map.names.map Json.string)), ("mappings", Json.string map.mappings)]

def toDataUri (map : SourceMap) : String :=
  "data:application/json;charset=utf-8;base64," ++ Base64.ofText map.toJson

def urlComment (url : String) : String := "--# sourceMappingURL=" ++ url

def toComment (map : SourceMap) : String := urlComment map.toDataUri

/-- A map that is being recorded while a text is written. -/
structure Builder where
  file : Option String
  sources : List String
  /-- The known contents by the index of their source, the latest first. -/
  contents : List (Nat × String)
  /-- The mappings, the latest first. -/
  mappings : List Mapping
  /-- The line and the column that the text has reached. -/
  line : Nat
  column : Nat
deriving Repr

namespace Builder

def empty : Builder := ⟨none, [], [], [], 0, 0⟩

def setFile (builder : Builder) (file : String) : Builder := { builder with file := some file }

def addSource (builder : Builder) (path : String) : Builder × Nat :=
  if builder.sources.contains path then (builder, builder.sources.idxOf path)
  else ({ builder with sources := builder.sources ++ [path] }, builder.sources.length)

def setContent (builder : Builder) (index : Nat) (content : String) : Builder :=
  { builder with contents := (index, content) :: builder.contents }

/-- Maps the place that the text has reached. Of several mappings at one place the last is kept. -/
def addMapping (builder : Builder) (source : Nat) (position : Position) (name : Option String) : Builder :=
  let mapping := ⟨builder.line, builder.column, source, position.line - 1, position.column, name⟩
  match builder.mappings with
  | latest :: earlier =>
    if latest.generatedLine = builder.line ∧ latest.generatedColumn = builder.column then
      { builder with mappings := mapping :: earlier }
    else { builder with mappings := mapping :: latest :: earlier }
  | [] => { builder with mappings := [mapping] }

def step (builder : Builder) (character : Char) : Builder :=
  if character = '\n' then { builder with line := builder.line + 1, column := 0 }
  else { builder with column := builder.column + character.utf8Size }

def advance (builder : Builder) (text : String) : Builder := text.toList.foldl step builder

/-- The names that the mappings use, in order of first use. -/
def names (builder : Builder) : List String := (builder.mappings.reverse.filterMap (·.name)).eraseDups

def build (builder : Builder) : SourceMap where
  file := builder.file
  sources := builder.sources
  sourcesContent :=
    if builder.contents.isEmpty then []
    else builder.sources.zipIdx.map fun (_, index) => builder.contents.lookup index
  names := builder.names
  mappings := encode builder.names builder.mappings.reverse

end Builder
end SourceMap
end LuaMinifier
