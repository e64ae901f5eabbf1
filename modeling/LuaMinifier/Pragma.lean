import LuaMinifier.Fragment

/-!
Pragmas: comments that begin with a marker and are kept in front of the output, each on a line of its own.
-/

namespace LuaMinifier

/-- The comments that begin with a marker, in source order. An empty marker keeps none. -/
def pragmas (marker : String) (comments : List Comment) : List Comment :=
  if marker.isEmpty then [] else comments.filter fun comment => marker.toList.isPrefixOf comment.value.toList

def Comment.line (module : String) (comment : Comment) : Fragment :=
  ((Fragment.ofOrigin ⟨module, comment.position⟩).append comment.raw).append "\n"

def Fragment.withPragmas (module : String) (kept : List Comment) (code : Fragment) : Fragment :=
  kept.foldr (fun comment output => output.prepend (comment.line module)) code

end LuaMinifier
