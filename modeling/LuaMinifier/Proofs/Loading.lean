import LuaMinifier.Bundle
import LuaMinifier.Proofs.Requests

/-!
What loading does, without the number that bounds its depth: from the requests that are still open and the modules
that are known it finds new modules, in order, until it is done or fails. The bound is always large enough.
-/

namespace LuaMinifier

namespace ModuleGraph

def namesOf (modules : List Module) : List String := modules.map (·.name)

def names (graph : ModuleGraph) : List String := namesOf graph.modules

@[simp] theorem namesOf_nil : namesOf [] = [] := rfl

@[simp] theorem namesOf_cons (module : Module) (modules : List Module) :
    namesOf (module :: modules) = module.name :: namesOf modules := rfl

@[simp] theorem namesOf_append (first second : List Module) :
    namesOf (first ++ second) = namesOf first ++ namesOf second := by
  simp [namesOf]

theorem contains_iff {graph : ModuleGraph} {name : String} : graph.contains name = true ↔ name ∈ graph.names := by
  simp [contains, names, namesOf]

theorem map_setStage_other {modules : List Module} {name : String} (other : name ∉ namesOf modules)
    (change : Stage → Stage) :
    (modules.map fun module => if module.name = name then { module with stage := change module.stage } else module) =
      modules := by
  refine (List.map_congr_left fun module member => if_neg fun same => ?_).trans (List.map_id _)
  exact other (List.mem_map.mpr ⟨module, member, same⟩)

theorem setStage_middle {before after : List Module} {name : String} (stage : Stage) (change : Stage → Stage)
    (first : name ∉ namesOf before) (last : name ∉ namesOf after) :
    setStage ⟨before ++ ⟨name, stage⟩ :: after⟩ name change = ⟨before ++ ⟨name, change stage⟩ :: after⟩ := by
  simp only [setStage, List.map_append, List.map_cons, map_setStage_other first, map_setStage_other last, if_true]

theorem setStage_request {graph : ModuleGraph} {name : String} (unknown : name ∉ graph.names)
    (change : Stage → Stage) :
    (graph.request name).setStage name change = ⟨graph.modules ++ [⟨name, change .pending⟩]⟩ :=
  setStage_middle .pending change unknown (by simp)

end ModuleGraph

open ModuleGraph

namespace Bundler

/-- What is found under each name. -/
abbrev Reader := String → Except Failure (LoadedModule × Chunk)

def parsed (found : LoadedModule × Chunk) : ParsedModule := ⟨found.1.path, found.1.source, found.2⟩

def followed (follow : Bool) (found : LoadedModule × Chunk) : List String := if follow then found.2.requires else []

/-- Loading some modules, one behind the other: its outcome and the modules that it adds to the known ones. The chain
holds the modules whose requires are being followed. -/
inductive Loads (reads : Reader) (follow : Bool) :
    List String → List String → List String → Except Failure Unit → List Module → Prop
  | done {chain known : List String} : Loads reads follow chain known [] (.ok ()) []
  | cycle {chain known rest : List String} {name : String} : name ∈ chain →
      Loads reads follow chain known (name :: rest) (.error (.cyclicDependency (chain ++ [name]))) []
  | known {chain known rest : List String} {name : String} {outcome : Except Failure Unit} {new : List Module} :
      name ∉ chain → name ∈ known → Loads reads follow chain known rest outcome new →
        Loads reads follow chain known (name :: rest) outcome new
  | unread {chain known rest : List String} {name : String} {failure : Failure} :
      name ∉ chain → name ∉ known → reads name = .error failure →
        Loads reads follow chain known (name :: rest) (.error failure) [⟨name, .failed none⟩]
  | broken {chain known rest : List String} {name : String} {found : LoadedModule × Chunk} {failure : Failure}
      {below : List Module} : name ∉ chain → name ∉ known → reads name = .ok found →
        Loads reads follow (chain ++ [name]) (known ++ [name]) (followed follow found) (.error failure) below →
          Loads reads follow chain known (name :: rest) (.error failure)
            (⟨name, .failed (some (parsed found))⟩ :: below)
  | found {chain known rest : List String} {name : String} {found : LoadedModule × Chunk}
      {outcome : Except Failure Unit} {below further : List Module} :
      name ∉ chain → name ∉ known → reads name = .ok found →
        Loads reads follow (chain ++ [name]) (known ++ [name]) (followed follow found) (.ok ()) below →
          Loads reads follow chain (known ++ name :: namesOf below) rest outcome further →
            Loads reads follow chain known (name :: rest) outcome
              (⟨name, .generating (parsed found)⟩ :: below ++ further)

namespace Loads

variable {reads : Reader} {follow : Bool} {chain known requests rest : List String} {name : String}
  {outcome : Except Failure Unit} {new further : List Module}

theorem new_not_known (loads : Loads reads follow chain known requests outcome new) :
    ∀ module ∈ new, module.name ∉ known := by
  induction loads with
  | done | cycle => simp
  | known _ _ _ ih => exact ih
  | unread _ unknown _ => simpa using unknown
  | broken _ unknown _ _ ih =>
      intro module member
      obtain rfl | inner := List.mem_cons.mp member
      · exact unknown
      · exact fun old => ih module inner (by simp [old])
  | found _ unknown _ _ _ ih others =>
      intro module member
      obtain rfl | inner | later := by simpa using member
      · exact unknown
      · exact fun old => ih module inner (by simp [old])
      · exact fun old => others module later (by simp [old])

theorem new_nodup (loads : Loads reads follow chain known requests outcome new) : (namesOf new).Nodup := by
  induction loads with
  | done | cycle => simp
  | known _ _ _ ih => exact ih
  | unread => simp [List.Nodup]
  | @broken _ _ _ name _ _ below _ _ _ inner ih =>
      refine List.nodup_cons.mpr ⟨fun again => ?_, ih⟩
      obtain ⟨module, member, same⟩ := List.mem_map.mp again
      exact inner.new_not_known module member (by simp [same])
  | @found _ _ _ name _ _ below further _ _ _ inner later ih others =>
      simp only [namesOf_append, namesOf_cons, List.cons_append, List.nodup_cons, List.nodup_append, List.mem_append]
      refine ⟨?_, ih, others, ?_⟩
      · rintro (again | again) <;> obtain ⟨module, member, same⟩ := List.mem_map.mp again
        · exact inner.new_not_known module member (by simp [same])
        · exact later.new_not_known module member (by simp [same])
      · rintro first early _ late rfl
        obtain ⟨module, member, same⟩ := List.mem_map.mp late
        exact later.new_not_known module member (by simp [same, early])

theorem requests_found (loads : Loads reads follow chain known requests outcome new) (fine : outcome = .ok ()) :
    ∀ name ∈ requests, name ∈ known ++ namesOf new := by
  induction loads with
  | done => simp
  | cycle | unread | broken => cases fine
  | known _ old _ ih => exact List.forall_mem_cons.mpr ⟨by simp [old], ih fine⟩
  | found _ _ _ _ _ _ others => exact List.forall_mem_cons.mpr ⟨by simp, by simpa using others fine⟩

theorem cons (first : Loads reads follow chain known [name] (.ok ()) new)
    (others : Loads reads follow chain (known ++ namesOf new) rest outcome further) :
    Loads reads follow chain known (name :: rest) outcome (new ++ further) := by
  cases first with
  | known fresh old last =>
      cases last
      exact .known fresh old (by simpa using others)
  | found fresh unknown found inner last =>
      cases last
      simpa using Loads.found fresh unknown found inner (by simpa using others)

theorem cons_error {failure : Failure} (first : Loads reads follow chain known [name] (.error failure) new) :
    Loads reads follow chain known (name :: rest) (.error failure) new := by
  cases first with
  | cycle repeated => exact .cycle repeated
  | known _ _ last => cases last
  | unread fresh unknown failed => exact .unread fresh unknown failed
  | broken fresh unknown found inner => exact .broken fresh unknown found inner
  | found _ _ _ _ last => cases last

theorem unique {outcome' : Except Failure Unit} {new' : List Module}
    (loads : Loads reads follow chain known requests outcome new)
    (again : Loads reads follow chain known requests outcome' new') : outcome = outcome' ∧ new = new' := by
  induction loads generalizing outcome' new' with
  | done =>
      cases again
      exact ⟨rfl, rfl⟩
  | cycle repeated => cases again <;> first | exact ⟨rfl, rfl⟩ | contradiction
  | known fresh old _ ih =>
      cases again with
      | known _ _ last => exact ih last
      | cycle | unread | broken | found => contradiction
  | unread fresh unknown failed =>
      cases again with
      | unread _ _ failed' =>
          cases failed.symm.trans failed'
          exact ⟨rfl, rfl⟩
      | broken _ _ found => cases failed.symm.trans found
      | found _ _ found => cases failed.symm.trans found
      | cycle | known => contradiction
  | broken fresh unknown found inner ih =>
      cases again with
      | unread _ _ failed => cases found.symm.trans failed
      | broken _ _ found' inner' =>
          cases found.symm.trans found'
          obtain ⟨same, rfl⟩ := ih inner'
          exact ⟨same, rfl⟩
      | found _ _ found' inner' =>
          cases found.symm.trans found'
          cases (ih inner').1
      | cycle | known => contradiction
  | found fresh unknown found inner later ih others =>
      cases again with
      | unread _ _ failed => cases found.symm.trans failed
      | broken _ _ found' inner' =>
          cases found.symm.trans found'
          cases (ih inner').1
      | found _ _ found' inner' later' =>
          cases found.symm.trans found'
          obtain ⟨-, rfl⟩ := ih inner'
          obtain ⟨rfl, rfl⟩ := others later'
          exact ⟨rfl, rfl⟩
      | cycle | known => contradiction

end Loads

section Growth

/-- A session that knows the globals of a module. -/
def learn (session : Session) (module : Module) : Session :=
  match module.stage.parsed? with
  | some parsed => session.reserve parsed.chunk.globals
  | none => session

def extend (bundler : Bundler) (new : List Module) : Bundler :=
  ⟨new.foldl learn bundler.session, ⟨bundler.graph.modules ++ new⟩, bundler.entry⟩

@[simp] theorem extend_nil (bundler : Bundler) : bundler.extend [] = bundler := by
  simp [extend]

@[simp] theorem extend_extend (bundler : Bundler) (first second : List Module) :
    (bundler.extend first).extend second = bundler.extend (first ++ second) := by
  simp [extend]

@[simp] theorem names_extend (bundler : Bundler) (new : List Module) :
    (bundler.extend new).graph.names = bundler.graph.names ++ namesOf new := by
  simp [extend, names]

end Growth

section Execution

variable {α β : Type} {bundler after : Bundler} {failure : Failure}

theorem run_bind (work : Bundling α) (next : α → Bundling β) (bundler : Bundler) :
    (work >>= next).run.run bundler =
      (ExceptT.bindCont next (work.run.run bundler).1).run (work.run.run bundler).2 := rfl

theorem run_bind_ok {work : Bundling α} {next : α → Bundling β} {value : α}
    (ran : work.run.run bundler = (.ok value, after)) :
    (work >>= next).run.run bundler = (next value).run.run after := by
  rw [run_bind, ran]
  rfl

theorem run_bind_error {work : Bundling α} {next : α → Bundling β}
    (ran : work.run.run bundler = (.error failure, after)) :
    (work >>= next).run.run bundler = (.error failure, after) := by
  rw [run_bind, ran]
  rfl

theorem run_tryCatch_ok {work : Bundling α} {handle : Failure → Bundling α} {value : α}
    (ran : work.run.run bundler = (.ok value, after)) :
    (tryCatch work handle).run.run bundler = (.ok value, after) := by
  have opened : (tryCatch work handle).run = _ := ExceptT.run_tryCatch work handle
  rw [opened, StateT.run_bind, ran]
  rfl

theorem run_tryCatch_error {work : Bundling α} {handle : Failure → Bundling α}
    (ran : work.run.run bundler = (.error failure, after)) :
    (tryCatch work handle).run.run bundler = (handle failure).run.run after := by
  have opened : (tryCatch work handle).run = _ := ExceptT.run_tryCatch work handle
  rw [opened, StateT.run_bind, ran]
  rfl

variable {library : Library} {follow : Bool} {depth : Nat} {chain requests : List String} {name : String}
  {given : Option LoadedModule} {found : LoadedModule × Chunk}

theorem run_load_cycle (repeated : name ∈ chain) : (load library follow (depth + 1) chain name given).run.run bundler =
    (.error (.cyclicDependency (chain ++ [name])), bundler) := by
  rw [load, if_pos (by simpa using repeated)]
  rfl

theorem run_load_known (fresh : name ∉ chain) (known : name ∈ bundler.graph.names) :
    (load library follow (depth + 1) chain name given).run.run bundler = (.ok (), bundler) := by
  rw [load, if_neg (by simpa using fresh)]
  have ran : (get : Bundling Bundler).run.run bundler = (.ok bundler, bundler) := rfl
  rw [run_bind_ok ran, if_pos (contains_iff.mpr known)]
  rfl

theorem run_load_unknown (fresh : name ∉ chain) (unknown : name ∉ bundler.graph.names) :
    (load library follow (depth + 1) chain name given).run.run bundler =
      (tryCatch (do
        let (loaded, chunk) ← (read library name given : Bundling (LoadedModule × Chunk))
        let requires ← record follow name loaded chunk
        requires.forM fun required => load library follow depth (chain ++ [name]) required none)
      fun failure => do
        modifyGraph (·.setStage name Stage.fail)
        throw failure : Bundling Unit).run.run { bundler with graph := bundler.graph.request name } := by
  rw [load, if_neg (by simpa using fresh)]
  have ran : (get : Bundling Bundler).run.run bundler = (.ok bundler, bundler) := rfl
  have missing : ¬bundler.graph.contains name = true := fun known => unknown (contains_iff.mp known)
  rw [run_bind_ok ran, if_neg missing]
  rfl

theorem run_load_unread (fresh : name ∉ chain) (unknown : name ∉ bundler.graph.names)
    (failed : read library name given = .error failure) :
    (load library follow (depth + 1) chain name given).run.run bundler =
      (.error failure, bundler.extend [⟨name, .failed none⟩]) := by
  have failing : ∀ asked : Bundler,
      (liftM (Except.error failure : Except Failure (LoadedModule × Chunk)) : Bundling _).run.run asked =
        (.error failure, asked) := fun _ => rfl
  rw [run_load_unknown fresh unknown, failed, run_tryCatch_error (run_bind_error (failing _))]
  have changed : (bundler.graph.request name).setStage name Stage.fail =
      ⟨bundler.graph.modules ++ [⟨name, .failed none⟩]⟩ :=
    setStage_request unknown Stage.fail
  rw [extend, ← changed]
  rfl

theorem run_discover (unknown : name ∉ bundler.graph.names) (opened : read library name given = .ok found) :
    (do
      let (loaded, chunk) ← (read library name given : Bundling (LoadedModule × Chunk))
      let requires ← record follow name loaded chunk
      requires.forM fun required => load library follow depth (chain ++ [name]) required none).run.run
        { bundler with graph := bundler.graph.request name } =
      ((followed follow found).forM fun required => load library follow depth (chain ++ [name]) required none).run.run
        (bundler.extend [⟨name, .generating (parsed found)⟩]) := by
  rw [opened, extend, ← setStage_request unknown fun _ => .generating (parsed found)]
  rfl

theorem run_load_found (fresh : name ∉ chain) (unknown : name ∉ bundler.graph.names)
    (opened : read library name given = .ok found)
    (ran : ((followed follow found).forM fun required =>
      load library follow depth (chain ++ [name]) required none).run.run
      (bundler.extend [⟨name, .generating (parsed found)⟩]) = (.ok (), after)) :
    (load library follow (depth + 1) chain name given).run.run bundler = (.ok (), after) := by
  rw [run_load_unknown fresh unknown]
  exact run_tryCatch_ok ((run_discover unknown opened).trans ran)

theorem run_load_broken (fresh : name ∉ chain) (unknown : name ∉ bundler.graph.names)
    (opened : read library name given = .ok found)
    (ran : ((followed follow found).forM fun required =>
      load library follow depth (chain ++ [name]) required none).run.run
      (bundler.extend [⟨name, .generating (parsed found)⟩]) = (.error failure, after)) :
    (load library follow (depth + 1) chain name given).run.run bundler =
      (.error failure, { after with graph := after.graph.setStage name Stage.fail }) := by
  rw [run_load_unknown fresh unknown, run_tryCatch_error ((run_discover unknown opened).trans ran)]
  rfl

theorem fail_extend (unknown : name ∉ bundler.graph.names) {below : List Module} (apart : name ∉ namesOf below) :
    { bundler.extend (⟨name, .generating (parsed found)⟩ :: below) with
      graph := (bundler.extend (⟨name, .generating (parsed found)⟩ :: below)).graph.setStage name Stage.fail } =
      bundler.extend (⟨name, .failed (some (parsed found))⟩ :: below) := by
  have changed := setStage_middle (.generating (parsed found)) Stage.fail unknown apart
  simp only [extend, changed]
  rfl

variable {reads : Reader} {pool : List String}

/-- With every module that can be required in a pool, a chain of different modules is at most one longer. -/
structure Room (pool chain : List String) (depth : Nat) : Prop where
  nodup : chain.Nodup
  pooled : chain.tail ⊆ pool
  enough : pool.length + 2 ≤ depth + chain.length

theorem Room.pos (room : Room pool chain 0) : False := by
  have short := (room.nodup.sublist (List.tail_sublist chain)).length_le_of_subset room.pooled
  have enough := room.enough
  rw [List.length_tail] at short
  omega

theorem Room.step (room : Room pool chain (depth + 1)) (fresh : name ∉ chain) (pooled : chain ≠ [] → name ∈ pool) :
    Room pool (chain ++ [name]) depth where
  nodup := by
    refine List.nodup_append.mpr ⟨room.nodup, by simp, fun first member second last same => fresh ?_⟩
    rwa [← List.mem_singleton.mp last, ← same]
  pooled := by
    cases chain with
    | nil => simp
    | cons first others =>
        simp only [List.cons_append, List.tail_cons]
        exact List.append_subset.mpr ⟨room.pooled, by simpa using pooled (by simp)⟩
  enough := by
    have enough := room.enough
    rw [List.length_append, List.length_singleton]
    omega

theorem exists_loads_forM
    (one : ∀ name ∈ requests, ∀ bundler : Bundler,
      (∀ other, other ∉ bundler.graph.names → reads other = read library other none) →
      ∃ outcome new, Loads reads follow chain bundler.graph.names [name] outcome new ∧
        (load library follow depth chain name none).run.run bundler = (outcome, bundler.extend new))
    (agrees : ∀ other, other ∉ bundler.graph.names → reads other = read library other none) :
    ∃ outcome new, Loads reads follow chain bundler.graph.names requests outcome new ∧
      (requests.forM fun name => load library follow depth chain name none).run.run bundler =
        (outcome, bundler.extend new) := by
  induction requests generalizing bundler with
  | nil => exact ⟨.ok (), [], .done, by rw [extend_nil]; rfl⟩
  | cons name rest ih =>
      obtain ⟨first, new, loads, ran⟩ := one name List.mem_cons_self bundler agrees
      have opened : (name :: rest).forM (fun name => load library follow depth chain name none) =
        (load library follow depth chain name none >>= fun _ =>
          rest.forM fun name => load library follow depth chain name none) := rfl
      rw [opened]
      cases first with
      | error failure => exact ⟨.error failure, new, loads.cons_error, run_bind_error ran⟩
      | ok =>
          have later : ∀ other, other ∉ (bundler.extend new).graph.names → reads other = read library other none :=
            fun other missing => agrees other fun known => missing (by simp [known])
          obtain ⟨outcome, further, others, ranOthers⟩ :=
            ih (fun name member => one name (List.mem_cons_of_mem _ member)) later
          rw [names_extend] at others
          exact ⟨outcome, new ++ further, loads.cons others, by rw [run_bind_ok ran, ranOthers, extend_extend]⟩

/-- Loading with enough room does what the rules say. -/
theorem exists_loads (contained : ∀ name found, reads name = .ok found → followed follow found ⊆ pool) :
    ∀ (depth : Nat) (chain : List String) (name : String) (given : Option LoadedModule) (bundler : Bundler),
      Room pool chain depth → (chain ≠ [] → name ∈ pool) →
      (name ∉ bundler.graph.names → reads name = read library name given) →
      (∀ other, other ∉ bundler.graph.names → other ≠ name → reads other = read library other none) →
      ∃ outcome new, Loads reads follow chain bundler.graph.names [name] outcome new ∧
        (load library follow depth chain name given).run.run bundler = (outcome, bundler.extend new) := by
  intro depth
  -- Each module of a chain takes one step of the depth, and there is room for as many as can be required.
  induction depth with
  | zero => exact fun chain name given bundler room => room.pos.elim
  | succ depth ih =>
      intro chain name given bundler room pooled here elsewhere
      by_cases repeated : name ∈ chain
      · exact ⟨_, [], .cycle repeated, by rw [run_load_cycle repeated, extend_nil]⟩
      by_cases known : name ∈ bundler.graph.names
      · exact ⟨_, [], .known repeated known .done, by rw [run_load_known repeated known, extend_nil]⟩
      have same := here known
      cases opened : reads name with
      | error failure =>
          exact ⟨_, _, .unread repeated known opened, run_load_unread repeated known (same.symm.trans opened)⟩
      | ok found =>
          have inside := room.step repeated pooled
          have agrees : ∀ other, other ∉ (bundler.extend [⟨name, .generating (parsed found)⟩]).graph.names →
              reads other = read library other none := by
            intro other missing
            simp only [names_extend, namesOf_cons, namesOf_nil, List.mem_append, List.mem_singleton, not_or] at missing
            exact elsewhere other missing.1 missing.2
          obtain ⟨outcome, below, loads, ran⟩ := exists_loads_forM
            (fun required member bundler agrees => ih _ required none bundler inside
              (fun _ => contained name found opened member) (agrees required)
              fun other missing _ => agrees other missing)
            agrees
          rw [names_extend] at loads
          rw [extend_extend, List.singleton_append] at ran
          -- The stage of the module changes afterwards; those below have other names and keep theirs.
          have apart : name ∉ namesOf below := fun again => by
            obtain ⟨module, member, same⟩ := List.mem_map.mp again
            exact loads.new_not_known module member (by simp [same])
          cases outcome with
          | error failure =>
              refine ⟨_, _, .broken repeated known opened loads, ?_⟩
              rw [run_load_broken repeated known (same.symm.trans opened) ran, fail_extend known apart]
          | ok =>
              refine ⟨_, _, .found repeated known opened loads .done, ?_⟩
              rw [run_load_found repeated known (same.symm.trans opened) ran, List.append_nil]

end Execution

section Runs

variable (library : Library) (options : Options) (entry : String) (preloaded : Option LoadedModule)

/-- What a run finds under each name: the text of its entry may be at hand. -/
def reader : Reader := fun name => read library name (if name = entry then preloaded else none)

theorem reader_entry (loaded : LoadedModule) : reader library entry (some loaded) entry =
    (parseModule entry loaded.source >>= fun chunk => pure (loaded, chunk)) := by
  rw [reader, if_pos rfl]
  rfl

def requested : List String := entry :: if options.moduleMode then options.extraModules else []

def discover (depth : Nat) : Bundling Unit := do
  load library options.moduleMode depth [] entry preloaded
  (if options.moduleMode then options.extraModules else []).forM fun extra =>
    load library options.moduleMode depth [] extra none

def finish (file : Option String) : Bundling Output := do
  modify printModules
  let code ← modifyGet (assemble options entry)
  return code.finalize file (describe options (← get).graph)

theorem run_eq (file : Option String) : run library options entry preloaded file = (do
    modify fun bundler => { bundler with entry := some entry }
    discover library options entry preloaded (depthBound library options preloaded)
    finish options entry file) := by
  unfold run discover finish
  cases options.moduleMode with
  | true => simp only [if_true, bind_assoc]
  | false => simp

def pool : List String := library.requiredNames ++ (preloaded.map fun loaded => requiredIn loaded.source).getD []

theorem length_pool_le : (pool library preloaded).length + 2 ≤ depthBound library options preloaded := by
  have texts := library.length_requiredNames_le
  unfold pool depthBound
  cases preloaded with
  | none =>
      simp only [Option.map_none, Option.getD_none, List.append_nil]
      omega
  | some loaded =>
      have text := length_requiredIn_le loaded.source
      simp only [Option.map_some, Option.getD_some, List.length_append]
      omega

variable {library options entry preloaded}

theorem read_eq_ok {name : String} {given : Option LoadedModule} {found : LoadedModule × Chunk}
    (opened : read library name given = .ok found) :
    (given = some found.1 ∨ given = none ∧ library.load name = .ok found.1) ∧
      Chunk.parse found.1.source = .ok found.2 := by
  have inner : ∀ loaded, (do
      let chunk ← parseModule name loaded.source
      return (loaded, chunk) : Except Failure (LoadedModule × Chunk)) = .ok found →
        loaded = found.1 ∧ Chunk.parse found.1.source = .ok found.2 := by
    intro loaded ran
    cases parsed : Chunk.parse loaded.source with
    | error failure =>
        rw [parseModule, parsed] at ran
        cases ran
    | ok chunk =>
        rw [parseModule, parsed] at ran
        cases ran
        exact ⟨rfl, parsed⟩
  unfold read at opened
  cases given with
  | some loaded =>
      obtain ⟨rfl, parsed⟩ := inner loaded opened
      exact ⟨.inl rfl, parsed⟩
  | none =>
      cases ran : library.load name with
      | error failure =>
          simp only [ran] at opened
          cases opened
      | ok loaded =>
          simp only [ran] at opened
          obtain ⟨rfl, parsed⟩ := inner loaded opened
          exact ⟨.inr ⟨rfl, rfl⟩, parsed⟩

theorem followed_subset_pool (follow : Bool) {name : String} {found : LoadedModule × Chunk}
    (opened : reader library entry preloaded name = .ok found) : followed follow found ⊆ pool library preloaded := by
  intro required member
  have named : required ∈ found.2.requires := by
    cases follow with
    | true => exact member
    | false => cases member
  obtain ⟨source, parsed⟩ := read_eq_ok opened
  rw [pool, List.mem_append]
  obtain given | ⟨-, loaded⟩ := source
  · right
    split at given
    · rw [given]
      exact Chunk.mem_requiredIn parsed named
    · cases given
  · exact .inl (Library.mem_requiredNames loaded parsed named)

variable (library options entry preloaded)

theorem exists_loads_discover {depth : Nat} (bound : depthBound library options preloaded ≤ depth) (bundler : Bundler) :
    ∃ outcome new, Loads (reader library entry preloaded) options.moduleMode [] bundler.graph.names
        (requested options entry) outcome new ∧
      (discover library options entry preloaded depth).run.run bundler = (outcome, bundler.extend new) := by
  have room : Room (pool library preloaded) [] depth :=
    ⟨.nil, List.nil_subset _, Nat.le_trans (length_pool_le library options preloaded) bound⟩
  have contained : ∀ name found, reader library entry preloaded name = .ok found →
      followed options.moduleMode found ⊆ pool library preloaded := fun _ _ => followed_subset_pool _
  have others : ∀ other, other ≠ entry → reader library entry preloaded other = read library other none :=
    fun other different => by rw [reader, if_neg different]
  obtain ⟨first, new, loads, ran⟩ := exists_loads contained depth [] entry preloaded bundler room (absurd rfl)
    (fun _ => by rw [reader, if_pos rfl]) fun other _ different => others other different
  unfold discover requested
  cases first with
  | error failure => exact ⟨.error failure, new, loads.cons_error, run_bind_error ran⟩
  | ok =>
      have inside := loads.requests_found rfl entry List.mem_cons_self
      rw [← names_extend] at inside
      obtain ⟨outcome, further, later, ranLater⟩ := exists_loads_forM
        (fun name _ bundler agrees => exists_loads contained depth [] name none bundler room (absurd rfl)
          (agrees name) fun other missing _ => agrees other missing)
        fun other missing => others other fun same => missing (same ▸ inside)
      rw [names_extend] at later
      exact ⟨outcome, new ++ further, loads.cons later, by rw [run_bind_ok ran, ranLater, extend_extend]⟩

/-- What a run does once its modules are found, or were not. -/
def complete (options : Options) (entry : String) (file : Option String) :
    Except Failure Unit → Bundler → Except Failure Output × Bundler
  | .error failure, bundler => (.error failure, bundler)
  | .ok (), bundler =>
    let (code, final) := assemble options entry bundler.printModules
    (.ok (code.finalize file (describe options final.graph)), final)

/-- A run finds modules, and prints them where it succeeds. -/
theorem exists_loads_run (file : Option String) (bundler : Bundler) :
    ∃ outcome new, Loads (reader library entry preloaded) options.moduleMode [] bundler.graph.names
        (requested options entry) outcome new ∧
      (run library options entry preloaded file).run.run bundler =
        complete options entry file outcome ({ bundler with entry := some entry }.extend new) := by
  obtain ⟨outcome, new, loads, ran⟩ := exists_loads_discover library options entry preloaded (Nat.le_refl _)
    { bundler with entry := some entry }
  refine ⟨outcome, new, loads, ?_⟩
  have started : (modify fun bundler => { bundler with entry := some entry } : Bundling Unit).run.run bundler =
    (.ok (), { bundler with entry := some entry }) := rfl
  rw [run_eq, run_bind_ok started]
  cases outcome with
  | error failure => exact run_bind_error ran
  | ok =>
      rw [run_bind_ok ran]
      rfl

end Runs

end Bundler
end LuaMinifier
