import LuaMinifier.Failure

/-!
Libraries: where the sources of modules come from. A library can answer for any name, but it holds only finitely
many texts.
-/

namespace LuaMinifier

structure LoadedModule where
  path : Path
  source : String
deriving DecidableEq, Repr

structure Library where
  load : String → Except Failure LoadedModule
  texts : List String
  complete : ∀ name loaded, load name = .ok loaded → loaded.source ∈ texts

namespace Library

/-- The modules of a list, by name; of several texts with one name the last is kept. -/
def lookup (modules : List (String × String)) (name : String) : Except Failure LoadedModule :=
  let path := Path.ofModule name "lua"
  match modules.reverse.lookup name with
  | some source => .ok ⟨path, source⟩
  | none => .error (.moduleNotFound name path)

theorem lookup_source_mem (modules : List (String × String)) (name : String) (loaded : LoadedModule)
    (found : lookup modules name = .ok loaded) : loaded.source ∈ modules.map (·.2) := by
  unfold lookup at found
  cases present : modules.reverse.lookup name with
  | none =>
      rw [present] at found
      exact absurd found (by simp)
  | some source =>
      rw [present] at found
      have same : loaded.source = source := congrArg LoadedModule.source (Except.ok.inj found).symm
      obtain ⟨before, after, split, _⟩ := List.lookup_eq_some_iff.mp present
      have member : (name, source) ∈ modules.reverse := by simp [split]
      rw [same]
      exact List.mem_map.mpr ⟨(name, source), List.mem_reverse.mp member, rfl⟩

def ofModules (modules : List (String × String)) : Library :=
  ⟨lookup modules, modules.map (·.2), lookup_source_mem modules⟩

/-- No more different names than this can be required by the texts of a library. -/
def requestBound (library : Library) : Nat := library.texts.foldr (fun text bound => text.utf8ByteSize + bound) 0

end Library
end LuaMinifier
