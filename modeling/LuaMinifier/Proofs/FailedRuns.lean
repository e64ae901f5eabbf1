import LuaMinifier.Proofs.Discovery
import Mathlib.Data.List.Chain
import Mathlib.Data.List.Nodup

/-!
What a run that fails leaves behind. Main statement: the modules that have failed are the way of requires on which the
run stopped, from its entry or an extra module to a module that cannot be read or that requires one on the way; all
other modules it has met are read and wait to be printed.
-/

namespace LuaMinifier

def Stage.isFailed : Stage → Bool
  | .failed _ => true
  | _ => false

theorem Stage.isFailed_iff {stage : Stage} : stage.isFailed = true ↔ ∃ parsed, stage = .failed parsed := by
  cases stage <;> simp [isFailed]

theorem Stage.body?_of_isFailed {stage : Stage} (failed : stage.isFailed = true) : stage.body? = none := by
  obtain ⟨parsed, rfl⟩ := isFailed_iff.mp failed
  rfl

namespace ModuleGraph

def failedNames (modules : List Module) : List String := namesOf (modules.filter (·.stage.isFailed))

/-- The modules that have failed, in the order in which they were met. -/
def failed (graph : ModuleGraph) : List String := failedNames graph.modules

theorem failedNames_sublist (modules : List Module) : (failedNames modules).Sublist (namesOf modules) :=
  List.filter_sublist.map _

@[simp] theorem failedNames_failed (name : String) (parsed : Option ParsedModule) (rest : List Module) :
    failedNames (⟨name, .failed parsed⟩ :: rest) = name :: failedNames rest := rfl

@[simp] theorem failedNames_generating (name : String) (parsed : ParsedModule) (rest : List Module) :
    failedNames (⟨name, .generating parsed⟩ :: rest) = failedNames rest := rfl

theorem failedNames_append (first second : List Module) :
    failedNames (first ++ second) = failedNames first ++ failedNames second := by
  simp [failedNames]

theorem isFailed_iff_mem {modules : List Module} (nodup : (namesOf modules).Nodup) {module : Module}
    (member : module ∈ modules) : module.stage.isFailed = true ↔ module.name ∈ failedNames modules := by
  constructor
  · intro failed
    exact List.mem_map.mpr ⟨module, List.mem_filter.mpr ⟨member, failed⟩, rfl⟩
  · intro named
    obtain ⟨other, kept, same⟩ := List.mem_map.mp named
    obtain ⟨inside, failed⟩ := List.mem_filter.mp kept
    rwa [List.inj_on_of_nodup_map nodup member inside same.symm]

end ModuleGraph

namespace Bundler

open ModuleGraph

variable {reads : Reader} {follow : Bool} {chain known requests roots : List String} {outcome : Except Failure Unit}
  {new : List Module} {name : String} {failure : Failure}

/-- Why a run stops at the end of a way: the last module cannot be read, or it requires one on the way. -/
inductive Stops (reads : Reader) : List String → Failure → Prop
  | unread {front : List String} {name : String} {failure : Failure} : reads name = .error failure →
      Stops reads (front ++ [name]) failure
  | cycle {way : List String} {again : String} : again ∈ way → (way ++ [again]).IsChain (Requires reads) →
      Stops reads way (.cyclicDependency (way ++ [again]))

namespace Loads

theorem failed_or_generating (loads : Loads reads follow chain known requests outcome new) :
    ∀ module ∈ new, module.stage.isFailed = true ∨
      ∃ found, reads module.name = .ok found ∧ module.stage = .generating (parsed found) := by
  induction loads with
  | done | cycle => simp
  | known _ _ _ ih => exact ih
  | unread => simp [Stage.isFailed]
  | broken _ _ _ _ ih => exact List.forall_mem_cons.mpr ⟨.inl rfl, ih⟩
  | @found _ _ _ _ found _ _ _ _ _ opened _ _ ih others =>
      refine List.forall_mem_cons.mpr ⟨.inr ⟨found, opened, rfl⟩, fun module member => ?_⟩
      exact (List.mem_append.mp member).elim (ih module) (others module)

theorem failedNames_of_ok (loads : Loads reads follow chain known requests outcome new) (fine : outcome = .ok ()) :
    failedNames new = [] := by
  have none : new.filter (·.stage.isFailed) = [] := by
    refine List.filter_eq_nil_iff.mpr fun module member => ?_
    obtain ⟨found, -, waits⟩ := loads.generating fine module member
    simp [waits, Stage.isFailed]
  rw [failedNames, none, namesOf_nil]

/-- The modules that fail are found along a chain of requires, and loading stops at its end. -/
theorem failed_way (loads : Loads reads true chain known requests outcome new) (failed : outcome = .error failure)
    (leads : ∀ name ∈ requests, (chain ++ [name]).IsChain (Requires reads)) :
    (chain ++ failedNames new).IsChain (Requires reads) ∧ (∀ first ∈ (failedNames new).head?, first ∈ requests) ∧
      Stops reads (chain ++ failedNames new) failure := by
  induction loads with
  | done => cases failed
  | @cycle chain known rest name repeated =>
      cases failed
      have way := leads name List.mem_cons_self
      simpa [failedNames] using And.intro way.left_of_append (Stops.cycle repeated way)
  | known _ _ _ ih =>
      obtain ⟨way, start, stops⟩ := ih failed fun name member => leads name (List.mem_cons_of_mem _ member)
      exact ⟨way, fun first member => List.mem_cons_of_mem _ (start first member), stops⟩
  | @unread _ _ _ name _ _ _ opened =>
      cases failed
      exact ⟨leads name List.mem_cons_self, by simp [failedNames, Stage.isFailed], .unread opened⟩
  | @broken chain _ _ name found _ below _ _ opened _ ih =>
      have way := leads name List.mem_cons_self
      have further : ∀ required ∈ followed true found, (chain ++ [name] ++ [required]).IsChain (Requires reads) := by
        intro required member
        refine way.append (List.isChain_singleton _) fun last atEnd next atStart => ?_
        obtain rfl : name = last := by simpa using atEnd
        obtain rfl : required = next := by simpa using atStart
        exact ⟨found, opened, member⟩
      obtain ⟨whole, -, stops⟩ := ih failed further
      rw [List.append_assoc, List.singleton_append] at whole stops
      rw [failedNames_failed]
      exact ⟨whole, by simp, stops⟩
  | @found chain _ _ name found _ below further _ _ _ inner _ _ others =>
      obtain ⟨way, start, stops⟩ := others failed fun name member => leads name (List.mem_cons_of_mem _ member)
      rw [failedNames_append, failedNames_generating, inner.failedNames_of_ok rfl, List.nil_append]
      exact ⟨way, fun first member => List.mem_cons_of_mem _ (start first member), stops⟩

end Loads

theorem Stops.ne_nil {way : List String} (stops : Stops reads way failure) : way ≠ [] := by
  cases stops with
  | unread => simp
  | cycle repeated _ => exact List.ne_nil_of_mem repeated

theorem reachable_of_way {way : List String} (start : ∀ first ∈ way.head?, first ∈ roots)
    (leads : way.IsChain (Requires reads)) : ∀ name ∈ way, Reachable reads roots name := by
  refine leads.induction _ _ (fun first second requires reached => reached.step requires) fun some => ?_
  exact .root (start _ (List.head?_eq_some_head some))

/-- Why a module cannot be read: the library does not give its text, or the text cannot be parsed. -/
inductive Unreadable (library : Library) (given : Option LoadedModule) (name : String) : Failure → Prop
  | refused {failure : Failure} : given = none → library.load name = .error failure →
      Unreadable library given name failure
  | malformed {loaded : LoadedModule} {error : SyntaxError} :
      (given = some loaded ∨ given = none ∧ library.load name = .ok loaded) →
        Chunk.parse loaded.source = .error error → Unreadable library given name (.parse name error)

theorem unreadable_of_read {library : Library} {given : Option LoadedModule}
    (failed : read library name given = .error failure) : Unreadable library given name failure := by
  have inner : ∀ loaded, (do
      let chunk ← parseModule name loaded.source
      return (loaded, chunk) : Except Failure (LoadedModule × Chunk)) = .error failure →
        ∃ error, Chunk.parse loaded.source = .error error ∧ failure = .parse name error := by
    intro loaded ran
    cases parsed : Chunk.parse loaded.source with
    | ok chunk =>
        rw [parseModule, parsed] at ran
        cases ran
    | error error =>
        rw [parseModule, parsed] at ran
        exact ⟨error, rfl, (Except.error.inj ran).symm⟩
  unfold read at failed
  cases given with
  | some loaded =>
      obtain ⟨error, parsed, rfl⟩ := inner loaded failed
      exact .malformed (.inl rfl) parsed
  | none =>
      cases ran : library.load name with
      | error refusal =>
          simp only [ran] at failed
          obtain rfl : refusal = failure := Except.error.inj failed
          exact .refused rfl ran
      | ok loaded =>
          simp only [ran] at failed
          obtain ⟨error, parsed, rfl⟩ := inner loaded failed
          exact .malformed (.inr ⟨rfl, ran⟩) parsed

theorem Stops.cycle_or_unreadable {library : Library} {entry : String} {preloaded : Option LoadedModule}
    {way : List String} (stops : Stops (reader library entry preloaded) way failure) :
    (∃ again ∈ way, failure = .cyclicDependency (way ++ [again]) ∧
        (way ++ [again]).IsChain (Requires (reader library entry preloaded))) ∨
      ∃ name ∈ way, way.getLast? = some name ∧
        Unreadable library (if name = entry then preloaded else none) name failure := by
  cases stops with
  | cycle repeated leads => exact .inl ⟨_, repeated, rfl, leads⟩
  | unread opened => exact .inr ⟨_, by simp, List.getLast?_concat .., unreadable_of_read opened⟩

/-- Where a run of a new bundler in module mode fails, the modules that have failed are a way of requires from the entry
or an extra module on. The failure is a cycle of this way and a module on it again, or it comes from the last module on
the way, which cannot be read. All other modules of the graph have been read, and none is printed. -/
theorem run_fails_along_way (library : Library) (options : Options) (entry : String) (preloaded : Option LoadedModule)
    (file : Option String) (mode : options.moduleMode = true) {failure : Failure}
    (failed : ((run library options entry preloaded file).run.run .empty).1 = .error failure) :
    let reads := reader library entry preloaded
    let roots := entry :: options.extraModules
    let graph := ((run library options entry preloaded file).run.run .empty).2.graph
    (∃ root ∈ roots, graph.failed.head? = some root) ∧ graph.failed.IsChain (Requires reads) ∧ graph.failed.Nodup ∧
      ((∃ again ∈ graph.failed, failure = .cyclicDependency (graph.failed ++ [again]) ∧
          (graph.failed ++ [again]).IsChain (Requires reads)) ∨
        ∃ name, graph.failed.getLast? = some name ∧ Reachable reads roots name ∧
          Unreadable library (if name = entry then preloaded else none) name failure) ∧
      ∀ module ∈ graph.modules, module.stage.body? = none ∧
        ((∃ parsed, module.stage = .failed parsed) ↔ module.name ∈ graph.failed) ∧
        (module.name ∉ graph.failed →
          ∃ found, reads module.name = .ok found ∧ module.stage = .generating (parsed found)) := by
  intro reads roots graph
  have asked : requested options entry = roots := by rw [requested, mode, if_pos rfl]
  obtain ⟨outcome, new, loads, done⟩ := exists_loads_run library options entry preloaded file .empty
  rw [mode, asked] at loads
  have stopped : outcome = .error failure := by
    rw [done] at failed
    cases outcome with
    | ok => exact absurd failed (by simp [complete])
    | error other => exact congrArg Except.error (Except.error.inj failed)
  subst stopped
  have modules : graph.modules = new := by
    simp only [graph, done]
    rfl
  have way : graph.failed = failedNames new := congrArg failedNames modules
  obtain ⟨leads, start, stops⟩ := loads.failed_way rfl fun name _ => List.isChain_singleton name
  rw [List.nil_append] at leads stops
  rw [way]
  refine ⟨?_, leads, loads.new_nodup.sublist (failedNames_sublist new), ?_, ?_⟩
  · have some := List.head?_eq_some_head stops.ne_nil
    exact ⟨_, start _ some, some⟩
  · obtain cycle | ⟨name, onWay, last, unreadable⟩ := stops.cycle_or_unreadable
    · exact .inl cycle
    · exact .inr ⟨name, last, reachable_of_way start leads name onWay, unreadable⟩
  · rw [modules]
    intro module member
    have named := isFailed_iff_mem loads.new_nodup member
    have either := loads.failed_or_generating module member
    refine ⟨?_, Stage.isFailed_iff.symm.trans named, fun missing => either.resolve_left fun broken =>
      missing (named.mp broken)⟩
    obtain broken | ⟨found, -, waits⟩ := either
    · exact Stage.body?_of_isFailed broken
    · simp [waits, Stage.body?]

/-- A cycle below an extra module, which requires a module that the entry has led to before. -/
theorem run_fails_along_way_extra :
    let library := Library.ofModules [("a", "require'd'"), ("b", "require'd'require'c'"), ("c", "require'e'require'b'"),
      ("d", ""), ("e", "")]
    let options : Options := { moduleMode := true, extraModules := ["b"] }
    let ran := (run library options "a" none none).run.run .empty
    options.moduleMode = true ∧ ran.1 = .error (.cyclicDependency ["b", "c", "b"]) ∧
      ran.2.graph.names = ["a", "d", "b", "c", "e"] ∧ ran.2.graph.failed = ["b", "c"] ∧
      ["b", "c", "b"].IsChain (Requires (reader library "a" none)) := by
  intro library options ran
  have failed : ran.1 = .error (.cyclicDependency ["b", "c", "b"]) := by decide +kernel
  have names : ran.2.graph.names = ["a", "d", "b", "c", "e"] := by decide +kernel
  have broken : ran.2.graph.failed = ["b", "c"] := by decide +kernel
  obtain ⟨-, -, -, ⟨again, -, same, leads⟩ | ⟨name, -, -, refused, refusal⟩, -⟩ :=
    run_fails_along_way library options "a" none none rfl failed
  · have chain : ["b", "c", "b"] = ran.2.graph.failed ++ [again] := Failure.cyclicDependency.inj same
    exact ⟨rfl, failed, names, broken, chain ▸ leads⟩
  · have missing : Library.lookup _ name = .error (.cyclicDependency ["b", "c", "b"]) := refusal
    unfold Library.lookup at missing
    split at missing <;> cases missing

end Bundler
end LuaMinifier
