import LuaMinifier.Proofs.Histories

/-!
What stays true of a bundler however often it is used and however its runs end: its graph only grows, a module that is
done or has failed is left alone, and no module is asked of a library twice. The state of a bundler does not show what
libraries were asked for, so there is a run that notes it and otherwise does the same.
-/

namespace LuaMinifier
namespace Bundler

open ModuleGraph

/-- A bundler, and the modules that libraries were asked for, in order. -/
structure Noted where
  bundler : Bundler
  asked : List String

/-- Work of a bundler that notes what libraries are asked for. -/
abbrev Noting := ExceptT Failure (StateM Noted)

namespace Noted

/-- Work that asks for nothing. -/
def quietly {α : Type} (work : Bundling α) : Noting α := ExceptT.mk do
  let noted ← get
  let (outcome, bundler) := work.run.run noted.bundler
  set ({ noted with bundler } : Noted)
  return outcome

/-- Every call of a library goes through here. -/
def ask (library : Library) (name : String) : Noting LoadedModule := do
  modify fun noted => { noted with asked := noted.asked ++ [name] }
  library.load name

def read (library : Library) (name : String) (preloaded : Option LoadedModule) : Noting (LoadedModule × Chunk) := do
  let loaded ← match preloaded with
    | some loaded => pure loaded
    | none => ask library name
  let chunk ← parseModule name loaded.source
  return (loaded, chunk)

def load (library : Library) (moduleMode : Bool) : Nat → List String → String → Option LoadedModule → Noting Unit
  | 0, chain, name, _ => throw (.cyclicDependency (chain ++ [name]))
  | depth + 1, chain, name, preloaded => do
    if chain.contains name then throw (.cyclicDependency (chain ++ [name]))
    if (← quietly get).graph.contains name then return
    quietly (modifyGraph (·.request name))
    let discover : Noting Unit := do
      let (loaded, chunk) ← read library name preloaded
      let requires ← quietly (record moduleMode name loaded chunk)
      requires.forM fun required => load library moduleMode depth (chain ++ [name]) required none
    tryCatch discover fun failure => do
      quietly (modifyGraph (·.setStage name Stage.fail))
      throw failure

def run (library : Library) (options : Options) (entry : String) (preloaded : Option LoadedModule)
    (file : Option String) : Noting Output := do
  quietly (modify fun bundler => { bundler with entry := some entry })
  let depth := depthBound library options preloaded
  load library options.moduleMode depth [] entry preloaded
  if options.moduleMode then
    options.extraModules.forM fun extra => load library options.moduleMode depth [] extra none
  quietly (modify printModules)
  let code ← quietly (modifyGet (assemble options entry))
  return code.finalize file (describe options (← quietly get).graph)

section Following

variable {α β : Type}

/-- The noting work has the outcome of the plain work, and leaves the bundler as that does. -/
def Follows (noting : Noting α) (plain : Bundling α) : Prop :=
  ∀ noted : Noted, ∃ asked, noting.run.run noted =
    ((plain.run.run noted.bundler).1, ⟨(plain.run.run noted.bundler).2, asked⟩)

theorem follows_quietly (work : Bundling α) : Follows (quietly work) work := fun noted => ⟨noted.asked, rfl⟩

theorem follows_pure (value : α) : Follows (pure value) (pure value) := fun noted => ⟨noted.asked, rfl⟩

theorem follows_throw (failure : Failure) : Follows (throw failure : Noting α) (throw failure) :=
  fun noted => ⟨noted.asked, rfl⟩

theorem run_bind (noting : Noting α) (next : α → Noting β) (noted : Noted) : (noting >>= next).run.run noted =
    (ExceptT.bindCont next (noting.run.run noted).1).run (noting.run.run noted).2 := rfl

theorem run_tryCatch (noting : Noting α) (handle : Failure → Noting α) (noted : Noted) :
    (tryCatch noting handle).run.run noted =
      match noting.run.run noted with
      | (.ok value, after) => (.ok value, after)
      | (.error failure, after) => (handle failure).run.run after := by
  have opened : (tryCatch noting handle).run = _ := ExceptT.run_tryCatch noting handle
  rw [opened, StateT.run_bind]
  obtain ⟨outcome, after⟩ := noting.run.run noted
  cases outcome <;> rfl

theorem Follows.bind {noting : Noting α} {plain : Bundling α} {next : α → Noting β} {continued : α → Bundling β}
    (first : Follows noting plain) (more : ∀ value, Follows (next value) (continued value)) :
    Follows (noting >>= next) (plain >>= continued) := by
  intro noted
  obtain ⟨asked, ran⟩ := first noted
  rw [run_bind, ran, Bundler.run_bind]
  cases (plain.run.run noted.bundler).1 with
  | error failure => exact ⟨asked, rfl⟩
  | ok value => exact more value ⟨(plain.run.run noted.bundler).2, asked⟩

theorem Follows.forM {items : List α} {noting : α → Noting Unit} {plain : α → Bundling Unit}
    (each : ∀ item, Follows (noting item) (plain item)) : Follows (items.forM noting) (items.forM plain) := by
  induction items with
  | nil => exact follows_pure ()
  | cons item rest ih => exact (each item).bind fun _ => ih

theorem Follows.catching {noting : Noting α} {plain : Bundling α} {handle : Failure → Noting α}
    {handled : Failure → Bundling α} (first : Follows noting plain)
    (more : ∀ failure, Follows (handle failure) (handled failure)) :
    Follows (tryCatch noting handle) (tryCatch plain handled) := by
  intro noted
  obtain ⟨asked, ran⟩ := first noted
  rw [run_tryCatch, ran]
  cases outcome : (plain.run.run noted.bundler).1 with
  | error failure =>
      rw [run_tryCatch_error (Prod.ext outcome rfl)]
      exact more failure ⟨(plain.run.run noted.bundler).2, asked⟩
  | ok value =>
      rw [run_tryCatch_ok (Prod.ext outcome rfl)]
      exact ⟨asked, rfl⟩

theorem follows_lift (result : Except Failure α) : Follows (liftM result) (liftM result) := by
  intro noted
  cases result <;> exact ⟨noted.asked, rfl⟩

theorem follows_ask (library : Library) (name : String) : Follows (ask library name) (library.load name) := by
  intro noted
  refine ⟨noted.asked ++ [name], ?_⟩
  unfold ask
  cases library.load name <;> rfl

theorem lift_bind (result : Except Failure α) (next : α → Except Failure β) :
    (liftM (result >>= next) : Bundling β) = liftM result >>= fun value => liftM (next value) := by
  cases result <;> rfl

theorem follows_read (library : Library) (name : String) (preloaded : Option LoadedModule) :
    Follows (read library name preloaded) (Bundler.read library name preloaded) := by
  have parsing (loaded : LoadedModule) : Follows (do
        let chunk ← parseModule name loaded.source
        return (loaded, chunk))
      (liftM (do
        let chunk ← parseModule name loaded.source
        return (loaded, chunk) : Except Failure (LoadedModule × Chunk))) := by
    rw [lift_bind]
    exact (follows_lift _).bind fun chunk => follows_pure _
  cases preloaded with
  | some loaded => exact parsing loaded
  | none =>
      rw [Bundler.read, lift_bind]
      exact (follows_ask library name).bind parsing

theorem follows_load (library : Library) (moduleMode : Bool) (depth : Nat) (chain : List String) (name : String)
    (preloaded : Option LoadedModule) : Follows (load library moduleMode depth chain name preloaded)
      (Bundler.load library moduleMode depth chain name preloaded) := by
  induction depth generalizing chain name preloaded with
  | zero => exact follows_throw _
  | succ depth ih =>
      rw [load, Bundler.load]
      split
      · exact follows_throw _
      · refine (follows_quietly _).bind fun bundler => ?_
        split
        · exact follows_pure ()
        · refine (follows_quietly _).bind fun _ => Follows.catching ?_ fun failure => ?_
          · refine (follows_read library name preloaded).bind fun found => (follows_quietly _).bind fun requires => ?_
            exact Follows.forM fun required => ih _ _ _
          · exact (follows_quietly _).bind fun _ => follows_throw failure

theorem follows_run (library : Library) (options : Options) (entry : String) (preloaded : Option LoadedModule)
    (file : Option String) :
    Follows (run library options entry preloaded file) (Bundler.run library options entry preloaded file) := by
  refine (follows_quietly _).bind fun _ => (follows_load _ _ _ _ _ _).bind fun _ => ?_
  have finishing : Follows (do
        quietly (modify printModules)
        let code ← quietly (modifyGet (assemble options entry))
        return code.finalize file (describe options (← quietly get).graph))
      (do
        modify printModules
        let code ← modifyGet (assemble options entry)
        return code.finalize file (describe options (← get).graph)) :=
    (follows_quietly _).bind fun _ => (follows_quietly _).bind fun _ => (follows_quietly _).bind fun _ => follows_pure _
  split
  · exact (Follows.forM fun extra => follows_load _ _ _ _ _ _).bind fun _ => finishing
  · exact finishing

end Following

section Asking

variable {α β : Type} {start : Noted → Prop}

/-- Nothing was asked for twice, and all that was asked for is in the graph. -/
structure Once (noted : Noted) : Prop where
  nodup : noted.asked.Nodup
  known : noted.asked ⊆ noted.bundler.graph.names

/-- However the work ends, nothing was asked for twice. -/
def Keeps (start : Noted → Prop) (noting : Noting α) : Prop := ∀ noted, start noted → Once (noting.run.run noted).2

theorem keeps_pure (value : α) : Keeps Once (pure value) := fun _ once => once

theorem keeps_throw (failure : Failure) : Keeps Once (throw failure : Noting α) := fun _ once => once

theorem keeps_quietly {work : Bundling α}
    (grows : ∀ bundler : Bundler, bundler.graph.names ⊆ (work.run.run bundler).2.graph.names) :
    Keeps Once (quietly work) :=
  fun noted once => ⟨once.nodup, fun _ member => grows noted.bundler (once.known member)⟩

theorem Keeps.bind {noting : Noting α} {next : α → Noting β} (first : Keeps start noting)
    (more : ∀ value, Keeps Once (next value)) : Keeps start (noting >>= next) := by
  intro noted started
  have once : Once (noting.run.run noted).2 := first noted started
  rw [run_bind]
  cases (noting.run.run noted).1 with
  | error failure => exact once
  | ok value => exact more value _ once

theorem Keeps.catching {noting : Noting α} {handle : Failure → Noting α} (first : Keeps start noting)
    (more : ∀ failure, Keeps Once (handle failure)) : Keeps start (tryCatch noting handle) := by
  intro noted started
  have once : Once (noting.run.run noted).2 := first noted started
  rw [run_tryCatch]
  generalize noting.run.run noted = ended at once
  obtain ⟨outcome, after⟩ := ended
  cases outcome with
  | error failure => exact more failure after once
  | ok value => exact once

theorem Keeps.forM {items : List α} {noting : α → Noting Unit} (each : ∀ item, Keeps Once (noting item)) :
    Keeps Once (items.forM noting) := by
  induction items with
  | nil => exact keeps_pure ()
  | cons item rest ih => exact (each item).bind fun _ => ih

/-- A module that stands in the graph and was not asked for may be asked for. -/
structure Open (name : String) (noted : Noted) : Prop extends Once noted where
  listed : name ∈ noted.bundler.graph.names
  unasked : name ∉ noted.asked

theorem keeps_lift (result : Except Failure α) : Keeps Once (liftM result) := by
  intro noted once
  cases result <;> exact once

theorem keeps_ask (library : Library) (name : String) : Keeps (Open name) (ask library name) := by
  intro noted free
  have once : Once ⟨noted.bundler, noted.asked ++ [name]⟩ :=
    { nodup := List.nodup_append.mpr ⟨free.nodup, List.pairwise_singleton .., by
        intro old asked fresh member same
        exact free.unasked (List.mem_singleton.mp member ▸ same ▸ asked)⟩
      known := List.append_subset.mpr ⟨free.known, List.cons_subset.mpr ⟨free.listed, List.nil_subset _⟩⟩ }
  exact keeps_lift (library.load name) ⟨noted.bundler, noted.asked ++ [name]⟩ once

theorem keeps_read (library : Library) (name : String) (preloaded : Option LoadedModule) :
    Keeps (Open name) (read library name preloaded) := by
  have parsing (loaded : LoadedModule) : Keeps Once (do
      let chunk ← parseModule name loaded.source
      return (loaded, chunk)) := (keeps_lift _).bind fun chunk => keeps_pure _
  cases preloaded with
  | some loaded => exact fun noted free => parsing loaded noted free.toOnce
  | none => exact (keeps_ask library name).bind parsing

theorem names_setStage (graph : ModuleGraph) (name : String) (change : Stage → Stage) :
    (graph.setStage name change).names = graph.names := by
  simp only [names, namesOf, setStage, List.map_map]
  refine List.map_congr_left fun module _ => ?_
  simp only [Function.comp_apply]
  split <;> rfl

theorem keeps_setStage (name : String) (change : Stage → Stage) :
    Keeps Once (quietly (modifyGraph (·.setStage name change))) :=
  keeps_quietly fun bundler => (names_setStage bundler.graph name change).symm ▸ List.Subset.refl _

theorem keeps_record (moduleMode : Bool) (name : String) (loaded : LoadedModule) (chunk : Chunk) :
    Keeps Once (quietly (record moduleMode name loaded chunk)) :=
  keeps_quietly fun bundler => (names_setStage bundler.graph name _).symm ▸ List.Subset.refl _

/-- A module that the graph does not hold was not asked for, so it is open once it is requested. -/
theorem Once.request {noted : Noted} {name : String} (once : Once noted)
    (unknown : name ∉ noted.bundler.graph.names) :
    Open name ⟨{ noted.bundler with graph := noted.bundler.graph.request name }, noted.asked⟩ where
  nodup := once.nodup
  known := by
    intro asked member
    have known : asked ∈ noted.bundler.graph.names := once.known member
    simp only [names, ModuleGraph.request, namesOf_append] at known ⊢
    exact List.mem_append_left _ known
  listed := by simp [names, ModuleGraph.request]
  unasked := fun member => unknown (once.known member)

theorem keeps_load (library : Library) (moduleMode : Bool) (depth : Nat) (chain : List String) (name : String)
    (preloaded : Option LoadedModule) : Keeps Once (load library moduleMode depth chain name preloaded) := by
  induction depth generalizing chain name preloaded with
  | zero => exact keeps_throw _
  | succ depth ih =>
      rw [load]
      split
      · exact keeps_throw _
      · intro noted once
        have opened (next : Bundler → Noting Unit) :
            (quietly get >>= next).run.run noted = (next noted.bundler).run.run noted := rfl
        rw [opened]
        split
        · exact once
        · rename_i missing
          have requested (next : Unit → Noting Unit) :
              (quietly (modifyGraph (·.request name)) >>= next).run.run noted = (next ()).run.run
                ⟨{ noted.bundler with graph := noted.bundler.graph.request name }, noted.asked⟩ := rfl
          rw [requested]
          refine Keeps.catching ?_ (fun failure => ?_) _ (once.request fun known => missing (contains_iff.mpr known))
          · refine (keeps_read library name preloaded).bind fun found => (keeps_record _ _ _ _).bind fun requires => ?_
            exact Keeps.forM fun required => ih _ _ _
          · exact (keeps_setStage name Stage.fail).bind fun _ => keeps_throw failure

theorem keeps_run (library : Library) (options : Options) (entry : String) (preloaded : Option LoadedModule)
    (file : Option String) : Keeps Once (run library options entry preloaded file) := by
  have finishing : Keeps Once (do
      quietly (modify printModules)
      let code ← quietly (modifyGet (assemble options entry))
      return code.finalize file (describe options (← quietly get).graph)) := by
    refine (keeps_quietly fun bundler => ?_).bind fun _ => (keeps_quietly fun bundler => ?_).bind fun _ =>
      (keeps_quietly fun bundler => List.Subset.refl _).bind fun _ => keeps_pure _
    · exact (names_printModules bundler).symm ▸ List.Subset.refl _
    · exact (congrArg names (graph_assemble options entry bundler)).symm ▸ List.Subset.refl _
  refine (keeps_quietly fun bundler => List.Subset.refl _).bind fun _ => (keeps_load _ _ _ _ _ _).bind fun _ => ?_
  split
  · exact (Keeps.forM fun extra => keeps_load _ _ _ _ _ _).bind fun _ => finishing
  · exact finishing

end Asking

end Noted

/-- One use of a bundler. What a library holds may change from one use to the next. -/
structure Request where
  library : Library
  entry : String
  preloaded : Option LoadedModule
  file : Option String

/-- What comes out of a use, and the bundler after it. -/
def serve (options : Options) (bundler : Bundler) (request : Request) : Except Failure Output × Bundler :=
  (run request.library options request.entry request.preloaded request.file).run.run bundler

/-- The bundler after some uses, whatever came out of them. -/
def serveAll (options : Options) (bundler : Bundler) (requests : List Request) : Bundler :=
  requests.foldl (fun bundler request => (serve options bundler request).2) bundler

def Noted.serve (options : Options) (noted : Noted) (request : Request) : Noted :=
  ((Noted.run request.library options request.entry request.preloaded request.file).run.run noted).2

def Noted.serveAll (options : Options) (noted : Noted) (requests : List Request) : Noted :=
  requests.foldl (Noted.serve options) noted

theorem serveAll_append (options : Options) (bundler : Bundler) (earlier later : List Request) :
    serveAll options bundler (earlier ++ later) = serveAll options (serveAll options bundler earlier) later :=
  List.foldl_append

theorem Noted.bundler_serve (options : Options) (noted : Noted) (request : Request) :
    (noted.serve options request).bundler = (Bundler.serve options noted.bundler request).2 := by
  obtain ⟨asked, ran⟩ := Noted.follows_run request.library options request.entry request.preloaded request.file noted
  rw [Noted.serve, ran]
  rfl

theorem Noted.bundler_serveAll (options : Options) (noted : Noted) (requests : List Request) :
    (noted.serveAll options requests).bundler = Bundler.serveAll options noted.bundler requests := by
  induction requests generalizing noted with
  | nil => rfl
  | cons request rest ih =>
      refine (ih (noted.serve options request)).trans ?_
      rw [Noted.bundler_serve]
      rfl

theorem Noted.once_empty : Noted.Once ⟨.empty, []⟩ := ⟨.nil, List.nil_subset _⟩

theorem Noted.Once.serveAll {options : Options} {noted : Noted} (once : noted.Once) (requests : List Request) :
    (noted.serveAll options requests).Once := by
  induction requests generalizing noted with
  | nil => exact once
  | cons request rest ih => exact ih (Noted.keeps_run _ _ _ _ _ noted once)

/-- A stage that is never left. -/
def ended : Stage → Bool
  | .pending | .generating _ => false
  | .done .. | .failed _ => true

/-- How the modules of a graph change: others are added behind them, and those that are done or have failed stay. -/
structure Grows (modules later : List Module) : Prop where
  listed : namesOf modules <+: namesOf later
  kept : ∀ (index : Nat) (module : Module), modules[index]? = some module → ended module.stage = true →
    later[index]? = some module

namespace Grows

variable {modules middle later : List Module}

theorem refl (modules : List Module) : Grows modules modules := ⟨List.prefix_rfl, fun _ _ found _ => found⟩

theorem trans (first : Grows modules middle) (second : Grows middle later) : Grows modules later where
  listed := first.listed.trans second.listed
  kept index module found final := second.kept index module (first.kept index module found final) final

theorem append (modules new : List Module) : Grows modules (modules ++ new) where
  listed := ⟨namesOf new, (namesOf_append modules new).symm⟩
  kept index module found _ := by
    rw [List.getElem?_append_left (List.getElem?_eq_some_iff.mp found).1]
    exact found

end Grows

theorem Prints.keeps_ended {session last : Session} {modules printed : List Module}
    (prints : Prints session modules printed last) : Grows modules printed where
  listed := prints.namesOf_eq ▸ List.prefix_rfl
  kept := by
    induction prints with
    | nil => exact nofun
    | kept _ _ ih =>
        intro index module found final
        cases index with
        | zero => exact found
        | succ index => exact ih index module found final
    | printed _ ih =>
        intro index module found final
        cases index with
        | zero =>
            cases found
            exact nomatch final
        | succ index => exact ih index module found final

/-- What holds of the modules of a graph between two uses. -/
structure Rested (modules : List Module) : Prop where
  nodup : (namesOf modules).Nodup
  answered : ∀ module ∈ modules, module.stage ≠ .pending

theorem rested_empty : Rested Bundler.empty.graph.modules := ⟨.nil, nofun⟩

section Steps

variable {options : Options} {bundler : Bundler}

theorem exists_serve (options : Options) (bundler : Bundler) (request : Request) :
    ∃ outcome new,
      Loads (reader request.library request.entry request.preloaded) options.moduleMode [] bundler.graph.names
        (requested options request.entry) outcome new ∧
      (outcome = .ok () ↔ ∃ output, (serve options bundler request).1 = .ok output) ∧
      ((∃ failure, outcome = .error failure) →
        (serve options bundler request).2.graph.modules = bundler.graph.modules ++ new) ∧
      (outcome = .ok () → ∃ session last,
        Prints session (bundler.graph.modules ++ new) (serve options bundler request).2.graph.modules last) := by
  obtain ⟨outcome, new, loads, ran⟩ :=
    exists_loads_run request.library options request.entry request.preloaded request.file bundler
  have served : serve options bundler request = _ := ran
  refine ⟨outcome, new, loads, ?_, ?_, ?_⟩
  · rw [served]
    exact exists_complete_iff.symm
  · rintro ⟨failure, rfl⟩
    rw [served]
    rfl
  · rintro rfl
    rw [served, graph_complete]
    exact ⟨_, _, prints_printModules ({ bundler with entry := some request.entry }.extend new)⟩

theorem grows_serve (options : Options) (bundler : Bundler) (request : Request) :
    Grows bundler.graph.modules (serve options bundler request).2.graph.modules := by
  obtain ⟨outcome, new, -, -, stopped, printed⟩ := exists_serve options bundler request
  have longer : Grows bundler.graph.modules (bundler.graph.modules ++ new) := .append ..
  cases outcome with
  | error failure => exact stopped ⟨failure, rfl⟩ ▸ longer
  | ok =>
      obtain ⟨session, last, prints⟩ := printed rfl
      exact longer.trans prints.keeps_ended

theorem Rested.serve (rested : Rested bundler.graph.modules) (request : Request) :
    Rested (serve options bundler request).2.graph.modules := by
  obtain ⟨outcome, new, loads, -, stopped, printed⟩ := exists_serve options bundler request
  have extended : Rested (bundler.graph.modules ++ new) :=
    { nodup := loads.nodup_append rested.nodup
      answered := List.forall_mem_append.mpr
        ⟨rested.answered, fun module member => (loads.stages module member).1⟩ }
  cases outcome with
  | error failure => exact stopped ⟨failure, rfl⟩ ▸ extended
  | ok =>
      obtain ⟨session, last, prints⟩ := printed rfl
      refine ⟨prints.namesOf_eq ▸ extended.nodup, fun module member => ?_⟩
      obtain ⟨old, -⟩ | ⟨parsed, session, -, same⟩ := prints.mem member
      · exact extended.answered module old
      · rw [same]
        exact nofun

theorem serve_not_generating {request : Request} {output : Output}
    (fine : (serve options bundler request).1 = .ok output) :
    ∀ module ∈ (serve options bundler request).2.graph.modules, ∀ parsed, module.stage ≠ .generating parsed := by
  obtain ⟨outcome, new, -, succeeds, -, printed⟩ := exists_serve options bundler request
  obtain ⟨session, last, prints⟩ := printed (succeeds.mpr ⟨output, fine⟩)
  intro module member
  obtain ⟨-, other⟩ | ⟨parsed, session, -, same⟩ := prints.mem member
  · exact other
  · rw [same]
    exact nofun

theorem grows_serveAll (options : Options) (bundler : Bundler) (requests : List Request) :
    Grows bundler.graph.modules (serveAll options bundler requests).graph.modules := by
  induction requests generalizing bundler with
  | nil => exact .refl _
  | cons request rest ih => exact (grows_serve options bundler request).trans (ih _)

theorem Rested.serveAll (rested : Rested bundler.graph.modules) (requests : List Request) :
    Rested (serveAll options bundler requests).graph.modules := by
  induction requests generalizing bundler with
  | nil => exact rested
  | cons request rest ih => exact ih (rested.serve request)

end Steps

theorem isSome_body?_iff (stage : Stage) : stage.body?.isSome = true ↔ ∃ parsed body, stage = .done parsed body := by
  cases stage <;> simp [Stage.body?]

/-- However a bundler is used: its graph grows by appending new names, libraries are asked for no module twice, what is
done or has failed stays as it is, only what is done has a body, nothing is left pending, and a use that gives an output
leaves nothing unprinted. -/
theorem serveAll_lifetimes (options : Options) (earlier later : List Request) :
    let before := serveAll options .empty earlier
    let after := serveAll options .empty (earlier ++ later)
    (∃ new, after.graph.names = before.graph.names ++ new ∧ after.graph.names.Nodup) ∧
      (∃ asked, Noted.serveAll options ⟨.empty, []⟩ (earlier ++ later) = ⟨after, asked⟩ ∧ asked.Nodup) ∧
      (∀ (index : Nat) (module : Module), before.graph.modules[index]? = some module → ended module.stage = true →
        after.graph.modules[index]? = some module) ∧
      (∀ module ∈ after.graph.modules, module.stage ≠ .pending ∧
        (module.stage.body?.isSome = true ↔ ∃ parsed body, module.stage = .done parsed body)) ∧
      ∀ request output, (serve options after request).1 = .ok output →
        ∀ module ∈ (serve options after request).2.graph.modules, ∀ parsed, module.stage ≠ .generating parsed := by
  intro before after
  have growth : Grows before.graph.modules after.graph.modules := by
    have continued : after = serveAll options before later := serveAll_append options .empty earlier later
    rw [continued]
    exact grows_serveAll options before later
  have rested : Rested after.graph.modules := rested_empty.serveAll (earlier ++ later)
  have once : (Noted.serveAll options ⟨.empty, []⟩ (earlier ++ later)).Once :=
    Noted.once_empty.serveAll (earlier ++ later)
  have followed : (Noted.serveAll options ⟨.empty, []⟩ (earlier ++ later)).bundler = after :=
    Noted.bundler_serveAll options ⟨.empty, []⟩ (earlier ++ later)
  obtain ⟨new, appended⟩ := growth.listed
  refine ⟨⟨new, appended.symm, rested.nodup⟩, ⟨_, followed ▸ rfl, once.nodup⟩, growth.kept, ?_, ?_⟩
  · exact fun module member => ⟨rested.answered module member, isSome_body?_iff module.stage⟩
  · exact fun request output fine => serve_not_generating fine

theorem serveAll_lifetimes_failed :
    (serveAll {} .empty [⟨.ofModules [], "a", none, none⟩]).graph.modules[0]? = some ⟨"a", .failed none⟩ ∧
      (serveAll {} .empty [⟨.ofModules [], "a", none, none⟩,
        ⟨.ofModules [("a", "x=1")], "a", none, none⟩]).graph.modules[0]? = some ⟨"a", .failed none⟩ := by
  have failed : (serveAll {} .empty [⟨.ofModules [], "a", none, none⟩]).graph.modules[0]? =
      some ⟨"a", .failed none⟩ := by
    rfl
  exact ⟨failed, (serveAll_lifetimes {} [⟨.ofModules [], "a", none, none⟩]
    [⟨.ofModules [("a", "x=1")], "a", none, none⟩]).2.2.1 0 _ failed rfl⟩

end Bundler
end LuaMinifier
