import LuaMinifier.Proofs.Discovery

/-!
Bundlers that are used more than once. What earlier runs left in the graph counts as loaded, also where loading it
failed; apart from that, a run that succeeds has printed all that its entry leads to.
-/

namespace LuaMinifier
namespace Bundler

open ModuleGraph

/-- The states of a bundler that is used again and again, the last one first. -/
inductive History (library : Library) (options : Options) : List Bundler → Prop
  | start : History library options [.empty]
  | run {bundler : Bundler} {earlier : List Bundler} (entry : String) (preloaded : Option LoadedModule)
      (file : Option String) : History library options (bundler :: earlier) →
        History library options (((run library options entry preloaded file).run.run bundler).2 :: bundler :: earlier)

/-- What holds of the graph of a bundler between two runs: its modules have different names, none is still asked for,
and those that a module requires are there unless it failed. -/
structure Settled (modules : List Module) : Prop where
  nodup : (namesOf modules).Nodup
  answered : ∀ module ∈ modules, module.stage ≠ .pending
  closed : ∀ module ∈ modules, ∀ parsed, module.stage.parsed? = some parsed →
    (∀ failed, module.stage ≠ .failed failed) → ∀ required ∈ parsed.chunk.requires, required ∈ namesOf modules

section Steps

variable {reads : Reader} {chain known requests : List String} {outcome : Except Failure Unit}
  {modules new printed : List Module} {session last : Session}

theorem Loads.stages {follow : Bool} (loads : Loads reads follow chain known requests outcome new) :
    ∀ module ∈ new, module.stage ≠ .pending ∧ ∀ parsed body, module.stage ≠ .done parsed body := by
  induction loads with
  | done | cycle => simp
  | known _ _ _ ih => exact ih
  | unread => simp
  | broken _ _ _ _ ih => exact List.forall_mem_cons.mpr ⟨by simp, ih⟩
  | found _ _ _ _ _ ih others =>
      exact List.forall_mem_append.mpr ⟨List.forall_mem_cons.mpr ⟨by simp, ih⟩, others⟩

/-- A module that was found did not fail only if all that it requires was found too. -/
theorem Loads.closed (loads : Loads reads true chain known requests outcome new) :
    ∀ module ∈ new, ∀ parsed, module.stage.parsed? = some parsed → (∀ failed, module.stage ≠ .failed failed) →
      ∀ required ∈ parsed.chunk.requires, required ∈ known ++ namesOf new := by
  induction loads with
  | done | cycle => simp
  | known _ _ _ ih => exact ih
  | unread =>
      intro module member parsed _ unfailed
      obtain rfl := List.mem_singleton.mp member
      exact absurd rfl (unfailed _)
  | broken _ _ _ _ ih =>
      intro module member parsed stored unfailed required named
      obtain rfl | under := List.mem_cons.mp member
      · exact absurd rfl (unfailed _)
      · simpa using ih module under parsed stored unfailed required named
  | @found chain known rest name found outcome below further _ _ _ inner _ ih others =>
      intro module member parsed stored unfailed required named
      obtain rfl | under | later := by simpa using member
      · cases stored
        have foundBelow := inner.requests_found rfl required named
        simp only [List.mem_append, namesOf_append, namesOf_cons, List.mem_cons] at foundBelow ⊢
        grind
      · have foundBelow := ih module under parsed stored unfailed required named
        simp only [List.mem_append, namesOf_append, namesOf_cons, List.mem_cons] at foundBelow ⊢
        grind
      · simpa using others module later parsed stored unfailed required named

theorem Loads.nodup_append {follow : Bool} (loads : Loads reads follow chain (namesOf modules) requests outcome new)
    (nodup : (namesOf modules).Nodup) : (namesOf (modules ++ new)).Nodup := by
  rw [namesOf_append, List.nodup_append]
  refine ⟨nodup, loads.new_nodup, fun first old second late same => ?_⟩
  obtain ⟨module, member, rfl⟩ := List.mem_map.mp late
  exact loads.new_not_known module member (same ▸ old)

theorem Settled.extend (settled : Settled modules)
    (loads : Loads reads true chain (namesOf modules) requests outcome new) : Settled (modules ++ new) where
  nodup := loads.nodup_append settled.nodup
  answered := List.forall_mem_append.mpr ⟨settled.answered, fun module member => (loads.stages module member).1⟩
  closed := by
    intro module member parsed stored unfailed required named
    rw [namesOf_append]
    obtain old | fresh := List.mem_append.mp member
    · exact List.mem_append.mpr (.inl (settled.closed module old parsed stored unfailed required named))
    · exact loads.closed module fresh parsed stored unfailed required named

theorem Settled.prints (settled : Settled modules) (prints : Prints session modules printed last) :
    Settled printed where
  nodup := prints.namesOf_eq ▸ settled.nodup
  answered := by
    intro module member
    obtain ⟨old, -⟩ | ⟨parsed, session, -, same⟩ := prints.mem member
    · exact settled.answered module old
    · rw [same]
      exact nofun
  closed := by
    intro module member parsed stored unfailed required named
    rw [prints.namesOf_eq]
    obtain ⟨old, -⟩ | ⟨other, session, old, same⟩ := prints.mem member
    · exact settled.closed module old parsed stored unfailed required named
    · rw [same] at stored
      cases stored
      exact settled.closed _ old parsed rfl nofun required named

end Steps

variable {library : Library} {options : Options} {entry : String} {preloaded : Option LoadedModule}
  {file : Option String} {bundler after : Bundler} {earlier : List Bundler} {output : Output}

theorem settled_run (mode : options.moduleMode = true) (settled : Settled bundler.graph.modules) :
    Settled ((run library options entry preloaded file).run.run bundler).2.graph.modules := by
  obtain ⟨outcome, new, loads, ran⟩ := exists_loads_run library options entry preloaded file bundler
  rw [mode] at loads
  have extended : Settled (bundler.graph.modules ++ new) := settled.extend loads
  rw [ran]
  cases outcome with
  | error failure => exact extended
  | ok =>
      rw [graph_complete]
      exact extended.prints (prints_printModules ({ bundler with entry := some entry }.extend new))

theorem History.settled (mode : options.moduleMode = true) {states : List Bundler}
    (history : History library options states) : ∀ state ∈ states, Settled state.graph.modules := by
  induction history with
  | start =>
      intro state member
      obtain rfl := List.mem_singleton.mp member
      exact ⟨.nil, nofun, nofun⟩
  | run entry preloaded file _ ih =>
      exact List.forall_mem_cons.mpr ⟨settled_run mode (ih _ List.mem_cons_self), ih⟩

/-- The modules that the stored chunks of a graph lead to. -/
inductive Reached (graph : ModuleGraph) (entry : String) : String → Prop
  | entry : Reached graph entry entry
  | step {name required : String} {module : Module} {parsed : ParsedModule} : Reached graph entry name →
      graph.find? name = some module → module.stage.parsed? = some parsed → required ∈ parsed.chunk.requires →
        Reached graph entry required

/-- The modules that an output should hold. -/
def Wanted (options : Options) (entry : String) (graph : ModuleGraph) (name : String) : Prop :=
  Reached graph entry name ∨ name ∈ options.extraModules

/-- An output that holds all that it should: the body of the entry at its end, and a branch of the loader for every
other module. -/
def Complete (options : Options) (entry : String) (graph : ModuleGraph) (output : Output) : Prop :=
  ∃ parsed body, graph.find? entry = some ⟨entry, .done parsed body⟩ ∧
    ∃ front names branches gap,
      output.code = front ++ (Loader.ofModules names branches).toText ++ gap ++ body.toText ∧
        ∀ name, Wanted options entry graph name → ∃ parsed body, graph.find? name = some ⟨name, .done parsed body⟩ ∧
          (name ≠ entry → branches.filter (·.1 = name) = [(name, body)])

section Lookup

variable {modules : List Module} {module : Module}

theorem find?_of_mem (nodup : (namesOf modules).Nodup) (member : module ∈ modules) :
    find? ⟨modules⟩ module.name = some module := by
  induction modules with
  | nil => cases member
  | cons first rest ih =>
      rw [namesOf_cons, List.nodup_cons] at nodup
      obtain rfl | inside := List.mem_cons.mp member
      · simp [find?]
      · have different : first.name ≠ module.name := fun same => nodup.1 (List.mem_map.mpr ⟨module, inside, same.symm⟩)
        simpa [find?, different] using ih nodup.2 inside

theorem mem_of_find? {graph : ModuleGraph} {name : String} (found : graph.find? name = some module) :
    module ∈ graph.modules ∧ module.name = name :=
  ⟨List.mem_of_find?_eq_some found, by simpa using List.find?_some found⟩

theorem filter_bodiesExcept_other {entry name : String} (missing : name ∉ namesOf modules) :
    (bodiesExcept ⟨modules⟩ entry).filter (·.1 = name) = [] := by
  refine List.filter_eq_nil_iff.mpr fun branch member same => missing ?_
  obtain ⟨module, inside, body⟩ := List.mem_filterMap.mp member
  obtain ⟨printed, -, rfl⟩ := Option.map_eq_some_iff.mp body
  exact List.mem_map.mpr ⟨module, (List.mem_filter.mp inside).1, by simpa using same⟩

theorem bodiesExcept_cons (first : Module) (rest : List Module) (entry : String) :
    bodiesExcept ⟨first :: rest⟩ entry =
      (if first.name = entry then [] else (first.stage.body?.map fun body => (first.name, body)).toList) ++
        bodiesExcept ⟨rest⟩ entry := by
  by_cases kept : first.name = entry
  · simp [bodiesExcept, kept]
  · cases body : first.stage.body? <;> simp [bodiesExcept, kept, body]

theorem filter_bodiesExcept (nodup : (namesOf modules).Nodup) {entry : String} {body : Fragment}
    (member : module ∈ modules) (printed : module.stage.body? = some body) (other : module.name ≠ entry) :
    (bodiesExcept ⟨modules⟩ entry).filter (·.1 = module.name) = [(module.name, body)] := by
  induction modules with
  | nil => cases member
  | cons first rest ih =>
      rw [namesOf_cons, List.nodup_cons] at nodup
      rw [bodiesExcept_cons, List.filter_append]
      obtain rfl | inside := List.mem_cons.mp member
      · rw [filter_bodiesExcept_other nodup.1, if_neg other, printed]
        simp
      · have different : first.name ≠ module.name := fun same => nodup.1 (List.mem_map.mpr ⟨module, inside, same.symm⟩)
        rw [ih nodup.2 inside]
        split
        · rfl
        · cases first.stage.body? <;> simp [different]

end Lookup

theorem loads_of_run (ran : (run library options entry preloaded file).run.run bundler = (.ok output, after)) :
    ∃ new, Loads (reader library entry preloaded) options.moduleMode [] bundler.graph.names (requested options entry)
        (.ok ()) new ∧
      complete options entry file (.ok ()) ({ bundler with entry := some entry }.extend new) = (.ok output, after) := by
  obtain ⟨outcome, new, loads, same⟩ := exists_loads_run library options entry preloaded file bundler
  obtain rfl : outcome = .ok () := by
    rw [ran] at same
    exact exists_complete_iff.mp ⟨output, (congrArg Prod.fst same).symm⟩
  exact ⟨new, loads, same.symm.trans ran⟩

/-- What the graph of a run that succeeded holds of an earlier state: a module that had failed still has, and any
other module is done. -/
theorem stage_after_run (settled : Settled bundler.graph.modules)
    (ran : (run library options entry preloaded file).run.run bundler = (.ok output, after)) {module : Module}
    (member : module ∈ after.graph.modules) :
    (∃ parsed, module.stage = .failed parsed ∧ module ∈ bundler.graph.modules) ∨
      ∃ parsed body, module.stage = .done parsed body := by
  obtain ⟨new, loads, same⟩ := loads_of_run ran
  have graph := congrArg (fun pair => pair.2.graph) same
  simp only [graph_complete] at graph
  rw [← graph] at member
  obtain ⟨old, kept⟩ | ⟨parsed, session, -, done⟩ := (prints_printModules _).mem member
  · obtain before | fresh := List.mem_append.mp old
    · cases stage : module.stage with
      | pending => exact absurd stage (settled.answered module before)
      | generating parsed => exact absurd stage (kept parsed)
      | done parsed body => exact .inr ⟨parsed, body, rfl⟩
      | failed parsed => exact .inl ⟨parsed, rfl, before⟩
    · obtain ⟨found, -, waits⟩ := loads.generating rfl module fresh
      exact absurd waits (kept _)
  · exact .inr ⟨parsed, _, done⟩

theorem find?_done (settled : Settled bundler.graph.modules) (settledAfter : Settled after.graph.modules)
    (ran : (run library options entry preloaded file).run.run bundler = (.ok output, after)) {name : String}
    (member : name ∈ after.graph.names) (unfailed : ∀ parsed, bundler.graph.find? name ≠ some ⟨name, .failed parsed⟩) :
    ∃ parsed body, after.graph.find? name = some ⟨name, .done parsed body⟩ := by
  obtain ⟨⟨_, stage⟩, inside, rfl⟩ := List.mem_map.mp member
  obtain ⟨parsed, rfl, old⟩ | ⟨parsed, body, rfl⟩ := stage_after_run settled ran inside
  · exact absurd (find?_of_mem settled.nodup old) (unfailed parsed)
  · exact ⟨parsed, body, find?_of_mem settledAfter.nodup inside⟩

theorem requested_after_run (ran : (run library options entry preloaded file).run.run bundler = (.ok output, after)) :
    ∀ name ∈ requested options entry, name ∈ after.graph.names := by
  obtain ⟨new, loads, same⟩ := loads_of_run ran
  have graph := congrArg (fun pair => pair.2.graph.names) same
  simp only [graph_complete, names_printModules, names_extend] at graph
  rw [← graph]
  exact loads.requests_found rfl

theorem find?_failed (settledAfter : Settled after.graph.modules)
    (ran : (run library options entry preloaded file).run.run bundler = (.ok output, after)) {name : String}
    {parsed : Option ParsedModule} (failed : bundler.graph.find? name = some ⟨name, .failed parsed⟩) :
    after.graph.find? name = some ⟨name, .failed parsed⟩ := by
  obtain ⟨new, -, same⟩ := loads_of_run ran
  have graph : ({ bundler with entry := some entry }.extend new).printModules.graph = after.graph := by
    rw [← graph_complete options entry file, same]
  have kept : ⟨name, .failed parsed⟩ ∈ after.graph.modules := by
    rw [← graph]
    exact (prints_printModules _).mem_kept (List.mem_append.mpr (.inl (mem_of_find? failed).1)) (by simp)
  exact find?_of_mem settledAfter.nodup kept

theorem mem_names_of_wanted (mode : options.moduleMode = true) (settledAfter : Settled after.graph.modules)
    (ran : (run library options entry preloaded file).run.run bundler = (.ok output, after))
    (done : ∀ name, Wanted options entry after.graph name → name ∈ after.graph.names →
      ∃ parsed body, after.graph.find? name = some ⟨name, .done parsed body⟩) {name : String}
    (wanted : Wanted options entry after.graph name) : name ∈ after.graph.names := by
  have asked := requested_after_run ran
  rw [requested, if_pos mode, List.forall_mem_cons] at asked
  obtain reached | extra := wanted
  · induction reached with
    | entry => exact asked.1
    | step reached found stored named ih =>
        -- A module that is done did not fail, so that the graph holds all that it requires.
        obtain ⟨parsed, body, again⟩ := done _ (.inl reached) ih
        cases found.symm.trans again
        cases stored
        exact settledAfter.closed _ (mem_of_find? again).1 _ rfl (by simp) _ named
  · exact asked.2 name extra

/-- Whatever ran before, a run that succeeds is complete if and only if none of the modules that it should hold had
failed in an earlier run. -/
theorem complete_iff_unfailed (mode : options.moduleMode = true)
    (history : History library options (bundler :: earlier))
    (ran : (run library options entry preloaded file).run.run bundler = (.ok output, after)) :
    Complete options entry after.graph output ↔ ∀ name, Wanted options entry after.graph name →
      ∀ parsed, bundler.graph.find? name ≠ some ⟨name, .failed parsed⟩ := by
  have settled := history.settled mode bundler List.mem_cons_self
  have settledAfter : Settled after.graph.modules := by
    have behind : Settled ((run library options entry preloaded file).run.run bundler).2.graph.modules :=
      settled_run mode settled
    rwa [ran] at behind
  constructor
  · rintro ⟨_, _, -, _, _, _, _, -, holds⟩ name wanted parsed failed
    obtain ⟨_, _, done, -⟩ := holds name wanted
    cases (find?_failed settledAfter ran failed).symm.trans done
  · intro unfailed
    have done : ∀ name, Wanted options entry after.graph name → name ∈ after.graph.names →
        ∃ parsed body, after.graph.find? name = some ⟨name, .done parsed body⟩ :=
      fun name wanted member => find?_done settled settledAfter ran member (unfailed name wanted)
    have present (name : String) (wanted : Wanted options entry after.graph name) : name ∈ after.graph.names :=
      mem_names_of_wanted mode settledAfter ran done wanted
    obtain ⟨parsed, body, found⟩ := done entry (.inl .entry) (present entry (.inl .entry))
    obtain ⟨new, -, same⟩ := loads_of_run ran
    obtain ⟨front, gap, code⟩ := exists_text_complete same
    rw [loaderText, if_pos mode, bodyText, found] at code
    refine ⟨parsed, body, found, front, _, _, gap, code, fun name wanted => ?_⟩
    obtain ⟨parsed, body, found⟩ := done name wanted (present name wanted)
    exact ⟨parsed, body, found, filter_bodiesExcept settledAfter.nodup (mem_of_find? found).1 rfl⟩

def failedIn (graph : ModuleGraph) (name : String) : Bool :=
  match graph.find? name with
  | some ⟨_, .failed _⟩ => true
  | _ => false

theorem failedIn_of_find? {graph : ModuleGraph} {name : String} {parsed : Option ParsedModule}
    (found : graph.find? name = some ⟨name, .failed parsed⟩) : failedIn graph name = true := by
  rw [failedIn, found]

def storedRequires (graph : ModuleGraph) (name : String) : List String :=
  (((graph.find? name).bind (·.stage.parsed?)).map (·.chunk.requires)).getD []

theorem Reached.mem_of_closed {graph : ModuleGraph} {entry name : String} {names : List String}
    (closed : ∀ name ∈ names, ∀ required ∈ storedRequires graph name, required ∈ names) (start : entry ∈ names)
    (reached : Reached graph entry name) : name ∈ names := by
  induction reached with
  | entry => exact start
  | step _ found stored named ih =>
      refine closed _ ih _ ?_
      simpa [storedRequires, found, stored] using named

/-- A module that an earlier run read and left behind is printed by the next one. -/
theorem complete_iff_unfailed_leftover :
    let library := Library.ofModules [("a", "require'b'require'x'"), ("b", "return 1"), ("c", "require'b'")]
    let options : Options := { moduleMode := true }
    let bundler := ((run library options "a" none none).run.run .empty).2
    History library options [bundler, .empty] ∧ ∃ output after,
      (run library options "c" none none).run.run bundler = (.ok output, after) ∧
        Complete options "c" after.graph output := by
  intro library options bundler
  have history : History library options [bundler, .empty] := .run "a" none none .start
  obtain ⟨output, fine⟩ : ∃ output, ((run library options "c" none none).run.run bundler).1 = .ok output :=
    exists_ok_of_toBool (by decide +kernel)
  have closed : ∀ name ∈ ["c", "b"], ∀ required ∈
      storedRequires ((run library options "c" none none).run.run bundler).2.graph name, required ∈ ["c", "b"] := by
    decide +kernel
  have unfailed : ∀ name ∈ ["c", "b"], failedIn bundler.graph name = false := by decide +kernel
  have ran : (run library options "c" none none).run.run bundler = (.ok output, _) := Prod.ext fine rfl
  refine ⟨history, output, _, ran, (complete_iff_unfailed rfl history ran).mpr ?_⟩
  rintro name (reached | ⟨⟨⟩⟩) parsed failed
  have free := unfailed name (reached.mem_of_closed closed List.mem_cons_self)
  rw [failedIn_of_find? failed] at free
  cases free

/-- A module that failed counts as loaded in the next run, which succeeds without it. -/
theorem run_after_failure_incomplete :
    let library := Library.ofModules [("a", "require'b'")]
    let options : Options := { moduleMode := true }
    let bundler := ((run library options "a" none none).run.run .empty).2
    ∃ output after, (run library options "a" none none).run.run bundler = (.ok output, after) ∧
      ¬Complete options "a" after.graph output := by
  intro library options bundler
  obtain ⟨output, fine⟩ : ∃ output, ((run library options "a" none none).run.run bundler).1 = .ok output :=
    exists_ok_of_toBool (by decide +kernel)
  have failed : failedIn ((run library options "a" none none).run.run bundler).2.graph "a" = true := by decide +kernel
  refine ⟨output, _, Prod.ext fine rfl, ?_⟩
  rintro ⟨parsed, body, found, -⟩
  rw [failedIn, found] at failed
  cases failed

end Bundler
end LuaMinifier
