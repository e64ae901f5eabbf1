import LuaMinifier.Bundle
import LuaMinifier.FileTree

/-!
Bundling a file: its modules are looked up below the module root, or else beside the file.
-/

namespace LuaMinifier

def FileTree.loadEntry (tree : FileTree) (path : Path) (entry : String) : Except Failure LoadedModule :=
  match tree.readText path with
  | .ok source => .ok ⟨path, source⟩
  | .error .notFound => .error (.moduleNotFound entry path)
  | .error fault => .error (.io fault)

/-- The directory below which a bundle finds its modules. -/
def Options.moduleDirectory (options : Options) (path : Path) : Path :=
  match options.moduleRoot with
  | some root => ⟨root⟩
  | none => path.parent.getD ⟨""⟩

def FileTree.bundle (tree : FileTree) (path : Path) (options : Options) : Except Failure Output := do
  match path.fileStem with
  | none => .error (.config (.notModuleFile path))
  | some entry =>
    let loaded ← tree.loadEntry path entry
    let library := tree.library (options.moduleDirectory path) options.extension
    ((Bundler.run library options entry (some loaded) (path.outputName options.extension)).run.run .empty).1

end LuaMinifier
