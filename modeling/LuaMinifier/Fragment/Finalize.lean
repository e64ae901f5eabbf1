import LuaMinifier.Fragment
import LuaMinifier.SourceMap

/-!
Turning a fragment into its text and the source map of that text.
-/

namespace LuaMinifier

structure SourceEntry where
  path : String
  content : Option String
deriving DecidableEq, Repr

structure Output where
  code : String
  map : SourceMap
deriving DecidableEq, Repr

/-- A map under construction, and the source index of every module met so far. -/
structure Recording where
  builder : SourceMap.Builder
  modules : List (String × Nat)

namespace Recording

/-- The index of a module's source, which is listed when the module is first met. -/
def indexOf (describe : String → SourceEntry) (recording : Recording) (module : String) : Recording × Nat :=
  match recording.modules.lookup module with
  | some index => (recording, index)
  | none =>
    let entry := describe module
    let (builder, index) := recording.builder.addSource entry.path
    let builder :=
      match entry.content with
      | some content => builder.setContent index content
      | none => builder
    (⟨builder, (module, index) :: recording.modules⟩, index)

def step (describe : String → SourceEntry) (recording : Recording) : Event → Recording
  | .text written => { recording with builder := recording.builder.advance written }
  | .mark origin name =>
    let (recording, index) := recording.indexOf describe origin.module
    { recording with builder := recording.builder.addMapping index origin.position name }

end Recording

/-- The text of a fragment and its source map, for an output file with an optional name. -/
def Fragment.finalize (fragment : Fragment) (file : Option String) (describe : String → SourceEntry) : Output :=
  let builder := { SourceMap.Builder.empty with file := file }
  let recording := fragment.events.foldl (Recording.step describe) ⟨builder, []⟩
  ⟨fragment.toText, recording.builder.build⟩

end LuaMinifier
