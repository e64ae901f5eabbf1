import LuaMinifier.Failure
import LuaMinifier.Fragment.Finalize
import LuaMinifier.Options
import LuaMinifier.Pragma
import LuaMinifier.Print

/-!
Minifying one source text on its own.
-/

namespace LuaMinifier

def parseModule (module source : String) : Except Failure Chunk :=
  (Chunk.parse source).mapError (.parse module)

/-- The short form of a chunk on its own: its globals keep their names, and every local gets a new one. -/
def Chunk.minified (module : String) (chunk : Chunk) : Fragment :=
  ((chunk.print module).run (Session.withReserved chunk.globals)).1

/-- Minifies a source text. Its name stands for it in messages and in the map. -/
def minify (name source : String) (options : Options) (file : Option String) : Except Failure Output := do
  let chunk ← parseModule name source
  let code := (chunk.minified name).withPragmas name (pragmas options.pragmaMarker chunk.comments)
  return code.finalize file fun module => ⟨module, if options.sourcesContent then some source else none⟩

end LuaMinifier
