import LuaMinifier.Ast.Parser
import LuaMinifier.Scope

/-!
Chunks: a whole source text read, with its names resolved.
-/

namespace LuaMinifier

/-- A source text as a tree, its comments, and the global names it uses. -/
structure Chunk where
  body : Block Identifier
  comments : List Comment
  globals : List String

/-- The names of the global variables a block uses, in the order of their first use. -/
def Block.globals (body : Block Identifier) : List String :=
  ((body.occurrences.filter (!·.isLocal)).map (·.name)).eraseDups

def Chunk.parse (source : String) : Except SyntaxError Chunk := do
  let lexed ← tokenize source
  let tree ← Block.ofTokens lexed
  let (body, _) := (tree.resolve).run Scope.empty
  return ⟨body, lexed.comments, body.globals⟩

end LuaMinifier
