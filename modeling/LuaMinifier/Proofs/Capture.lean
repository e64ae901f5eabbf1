import LuaMinifier.Proofs.Histories
import LuaMinifier.Proofs.Respelling

/-!
Which locals of an output are spelled like a global of one of its modules. A session never hands out a name that is
reserved, and it never takes a name back: a local meets a global only if it got its short name in an earlier run,
before the module with that global was read.
-/

namespace LuaMinifier
namespace Session

variable {earlier later : Session}

/-- A session at two times: what it reserved stays reserved, what it named keeps its name, and no name given in between
was reserved before. -/
structure Advances (earlier later : Session) : Prop where
  reserved : ∀ {name}, name ∈ earlier.reserved → name ∈ later.reserved
  bindings : ∀ {name short}, earlier.binding? name = some short → later.binding? name = some short
  given : ∀ {name short}, later.binding? name = some short → short ∈ earlier.reserved →
    earlier.binding? name = some short

namespace Advances

theorem refl (session : Session) : session.Advances session := ⟨id, id, fun given _ => given⟩

theorem trans {middle : Session} (first : earlier.Advances middle) (second : middle.Advances later) :
    earlier.Advances later where
  reserved member := second.reserved (first.reserved member)
  bindings given := second.bindings (first.bindings given)
  given given member := first.given (second.given given (first.reserved member)) member

end Advances

theorem reserve_advances (session : Session) (names : List String) : session.Advances (session.reserve names) :=
  ⟨fun member => mem_reserve.mpr (.inr member), id, fun given _ => given⟩

theorem fresh_advances (session : Session) : session.Advances session.fresh.1 := ⟨id, id, fun given _ => given⟩

theorem fresh_not_reserved (session : Session) : session.fresh.2 ∉ session.reserved := by
  have free := session.isTaken_fresh
  simp only [isTaken, isReserved, Bool.or_eq_false_iff] at free
  simpa using free.1.1.2

theorem bind_advances {session : Session} {name : String} (unbound : session.binding? name = none) :
    session.Advances (session.bind name) := by
  refine ⟨id, (bind_grows unbound).bindings, fun given member => ?_⟩
  rw [binding_bind] at given
  split at given
  · cases given
    exact absurd member session.fresh_not_reserved
  · exact given

theorem rename_advances (session : Session) (name : String) : session.Advances (session.rename name).1 := by
  rcases session.rename_cases name with ⟨_, same⟩ | ⟨_, ⟨short, _, same⟩ | ⟨unbound, same⟩⟩ <;> rw [same]
  · exact .refl session
  · exact .refl session
  · exact bind_advances unbound

theorem spell_advances (identifier : Identifier) (session : Session) :
    session.Advances (identifier.spell session).2 := by
  unfold Identifier.spell
  split
  · exact session.rename_advances identifier.name
  · exact .refl session

theorem mapM_advances (identifiers : List Identifier) (session : Session) :
    session.Advances (identifiers.mapM Identifier.spell session).2 := by
  induction identifiers generalizing session with
  | nil => exact .refl session
  | cons first rest ih =>
      have whole : ((first :: rest).mapM Identifier.spell session).2 =
          (rest.mapM Identifier.spell (first.spell session).2).2 := by
        rw [List.mapM_cons]
        rfl
      rw [whole]
      exact (spell_advances first session).trans (ih _)

theorem spell_block_advances (body : Block Identifier) (session : Session) :
    session.Advances (body.spell session).2 := by
  have same : (body.spell session).2 = (body.occurrences.mapM Identifier.spell session).2 :=
    congrArg Prod.snd (congrFun (body.occurrences_mapM Identifier.spell) session)
  rw [same]
  exact mapM_advances body.occurrences session

theorem loaderVariables_advances (session : Session) : session.Advances (loaderVariables session).2 :=
  (session.fresh_advances.trans session.fresh.1.fresh_advances).trans session.fresh.1.fresh.1.fresh_advances

theorem reserved_loaderVariables (session : Session) : (loaderVariables session).2.reserved = session.reserved :=
  ((session.fresh_grows.trans session.fresh.1.fresh_grows).trans session.fresh.1.fresh.1.fresh_grows).reserved

theorem loaderVariables_not_reserved {session : Session} {name : String} (reserved : name ∈ session.reserved) :
    (loaderVariables session).1.host ≠ name ∧ (loaderVariables session).1.loaded ≠ name ∧
      (loaderVariables session).1.name ≠ name := by
  refine ⟨?_, ?_, ?_⟩ <;> rintro rfl
  · exact session.fresh_not_reserved reserved
  · exact session.fresh.1.fresh_not_reserved reserved
  · exact session.fresh.1.fresh.1.fresh_not_reserved reserved

end Session

theorem Session.fresh_empty : Session.empty.fresh.2 = "a" := by
  have free : Session.empty.isTaken "a" = false := by
    simp [isTaken, isReserved, empty]
    decide
  have shown : Odometer.start.advance.current = "a" := by decide
  have steps : Session.empty.enoughSteps = 24 := by
    simp [enoughSteps, empty]
    decide
  have found : Session.empty.search 24 Odometer.start = Odometer.start.advance := by
    rw [search, shown, free]
    rfl
  rw [fresh, steps]
  exact (congrArg Odometer.current found).trans shown

/-- Some local variable of a chunk, printed with a spelling in a session. -/
def Chunk.SpellsLocal (chunk : Chunk) (session : Session) (name spelling : String) : Prop :=
  ∃ occurrence ∈ chunk.body.occurrences.zip (chunk.body.spell session).1.occurrences,
    occurrence.1.isLocal = true ∧ occurrence.1.name = name ∧ occurrence.2.text = spelling

theorem Block.occurrences_spelling (body : Block Identifier) (session : Session) :
    (body.spell session).1.occurrences = body.occurrences.map (body.spell session).2.spelling := by
  have same := congrArg Block.occurrences (Session.spell_view .exact id body session)
  simpa [Block.occurrences_view] using same

theorem mem_zip_map {α β : Type} {change : α → β} {values : List α} {pair : α × β} :
    pair ∈ values.zip (values.map change) ↔ pair.1 ∈ values ∧ pair.2 = change pair.1 := by
  induction values with
  | nil => simp
  | cons first rest ih =>
      obtain ⟨value, changed⟩ := pair
      simp only [List.map_cons, List.zip_cons_cons, List.mem_cons, Prod.mk.injEq, ih]
      grind

theorem Chunk.SpellsLocal.binding {chunk : Chunk} {session : Session} {name spelling : String}
    (other : name ≠ preservedName) (spelled : chunk.SpellsLocal session name spelling) :
    (chunk.body.spell session).2.binding? name = some spelling := by
  obtain ⟨⟨identifier, printed⟩, member, isLocal, rfl, rfl⟩ := spelled
  rw [Block.occurrences_spelling] at member
  obtain ⟨inside, same⟩ := mem_zip_map.mp member
  obtain ⟨short, given⟩ := Option.isSome_iff_exists.mp
    (Session.spell_knows chunk.body session identifier inside isLocal other)
  obtain rfl : printed = (chunk.body.spell session).2.spelling identifier := same
  simp_all [Session.spelling, Session.shortName]

theorem Chunk.spellsLocal_of_binding {chunk : Chunk} {session : Session} {identifier : Identifier} {spelling : String}
    (member : identifier ∈ chunk.body.occurrences) (isLocal : identifier.isLocal = true)
    (other : identifier.name ≠ preservedName) (given : session.binding? identifier.name = some spelling) :
    chunk.SpellsLocal session identifier.name spelling := by
  have later := (Session.spell_block_advances chunk.body session).bindings given
  refine ⟨(identifier, (chunk.body.spell session).2.spelling identifier), ?_, isLocal, rfl, ?_⟩
  · rw [Block.occurrences_spelling]
    exact mem_zip_map.mpr ⟨member, rfl⟩
  · simp [Session.spelling, Session.shortName, isLocal, other, later]

namespace Bundler

open ModuleGraph

section Sessions

variable {session last : Session} {modules new printed : List Module}

theorem foldl_learn_advances (new : List Module) (session : Session) : session.Advances (new.foldl learn session) := by
  induction new generalizing session with
  | nil => exact .refl session
  | cons module rest ih =>
      refine Session.Advances.trans ?_ (ih _)
      unfold learn
      split
      · exact session.reserve_advances _
      · exact .refl session

theorem binding_foldl_learn (new : List Module) (session : Session) (name : String) :
    (new.foldl learn session).binding? name = session.binding? name := by
  induction new generalizing session with
  | nil => rfl
  | cons module rest ih =>
      rw [List.foldl_cons, ih]
      unfold learn
      split <;> rfl

theorem mem_reserved_learn {module : Module} (member : module ∈ new) {parsed : ParsedModule}
    (stored : module.stage.parsed? = some parsed) {name : String} (used : name ∈ parsed.chunk.globals) :
    name ∈ (new.foldl learn session).reserved := by
  induction new generalizing session with
  | nil => cases member
  | cons first rest ih =>
      rw [List.foldl_cons]
      obtain rfl | inside := List.mem_cons.mp member
      · refine (foldl_learn_advances rest _).reserved ?_
        rw [learn, stored]
        exact Session.mem_reserve.mpr (.inl used)
      · exact ih inside

theorem Prints.advances (prints : Prints session modules printed last) : session.Advances last := by
  induction prints with
  | nil => exact .refl _
  | kept _ _ ih => exact ih
  | printed _ ih => exact (Session.spell_block_advances _ _).trans ih

/-- A body shows every local with the name that the session has for it from then on. -/
def Shows (session : Session) (module : Module) : Prop :=
  ∀ parsed body, module.stage = .done parsed body →
    ∃ before, body = ((parsed.chunk.print module.name).run before).1 ∧
      ∀ name spelling, name ≠ preservedName → parsed.chunk.SpellsLocal before name spelling →
        session.binding? name = some spelling

theorem Shows.advance {later : Session} {module : Module} (shows : Shows session module)
    (advances : session.Advances later) : Shows later module := by
  intro parsed body done
  obtain ⟨before, same, spelled⟩ := shows parsed body done
  exact ⟨before, same, fun name spelling other local_ => advances.bindings (spelled name spelling other local_)⟩

theorem Prints.shows (prints : Prints session modules printed last) (shows : ∀ module ∈ modules, Shows session module) :
    ∀ module ∈ printed, Shows last module := by
  induction prints with
  | nil => nofun
  | @kept session last module rest printed other prints ih =>
      refine List.forall_mem_cons.mpr ⟨(shows module List.mem_cons_self).advance prints.advances, ?_⟩
      exact ih fun module member => shows module (List.mem_cons_of_mem _ member)
  | @printed session last name parsed rest printed prints ih =>
      have advances := Session.spell_block_advances parsed.chunk.body session
      refine List.forall_mem_cons.mpr ⟨?_, ih fun module member =>
        (shows module (List.mem_cons_of_mem _ member)).advance advances⟩
      intro again body done
      cases done
      exact ⟨session, rfl, fun name spelling other spelled => prints.advances.bindings (spelled.binding other)⟩

end Sessions

section Runs

variable {library : Library} {options : Options} {entry : String} {preloaded : Option LoadedModule}
  {file : Option String} {bundler after : Bundler} {earlier : List Bundler} {output : Output}
  {outcome : Except Failure Unit}

theorem assemble_advances (options : Options) (entry : String) (bundler : Bundler) :
    bundler.session.Advances (assemble options entry bundler).2.session := by
  unfold assemble
  cases options.moduleMode with
  | true => exact bundler.session.loaderVariables_advances
  | false => exact .refl _

theorem reserved_assemble (options : Options) (entry : String) (bundler : Bundler) :
    (assemble options entry bundler).2.session.reserved = bundler.session.reserved := by
  unfold assemble
  cases options.moduleMode with
  | true => exact bundler.session.reserved_loaderVariables
  | false => rfl

theorem complete_advances (options : Options) (entry : String) (file : Option String) (outcome : Except Failure Unit)
    (bundler : Bundler) : bundler.session.Advances (complete options entry file outcome bundler).2.session := by
  cases outcome with
  | error failure => exact .refl _
  | ok => exact (prints_printModules bundler).advances.trans (assemble_advances options entry bundler.printModules)

theorem stored_of_complete {module : Module}
    (member : module ∈ (complete options entry file outcome bundler).2.graph.modules) {parsed : ParsedModule}
    (stored : module.stage.parsed? = some parsed) :
    ∃ old ∈ bundler.graph.modules, old.name = module.name ∧ old.stage.parsed? = some parsed := by
  cases outcome with
  | error failure => exact ⟨module, member, rfl, stored⟩
  | ok =>
      rw [graph_complete] at member
      obtain ⟨old, -⟩ | ⟨again, session, old, same⟩ := (prints_printModules bundler).mem member
      · exact ⟨module, old, rfl, stored⟩
      · rw [same] at stored
        exact ⟨_, old, rfl, stored⟩

theorem shows_complete (shows : ∀ module ∈ bundler.graph.modules, Shows bundler.session module) :
    ∀ module ∈ (complete options entry file outcome bundler).2.graph.modules,
      Shows (complete options entry file outcome bundler).2.session module := by
  cases outcome with
  | error failure => exact shows
  | ok =>
      intro module member
      rw [graph_complete] at member
      exact ((prints_printModules bundler).shows shows module member).advance
        (assemble_advances options entry bundler.printModules)

/-- What a bundler and its earlier states have to do with each other: it knows the globals of its modules, its bodies
show its short names, and a local that is spelled like a global was so before the module of that global was read. -/
structure Tracked (state : Bundler) (earlier : List Bundler) : Prop where
  reserved : ∀ module ∈ state.graph.modules, ∀ parsed, module.stage.parsed? = some parsed →
    ∀ name ∈ parsed.chunk.globals, name ∈ state.session.reserved
  shows : ∀ module ∈ state.graph.modules, Shows state.session module
  early : ∀ module ∈ state.graph.modules, ∀ parsed, module.stage.parsed? = some parsed →
    ∀ global ∈ parsed.chunk.globals, ∀ name, state.session.binding? name = some global →
      ∃ before ∈ earlier, module.name ∉ before.graph.names ∧ before.session.binding? name = some global
  kept : ∀ before ∈ earlier, before.session.Advances state.session

theorem Tracked.run (tracked : Tracked bundler earlier) (library : Library) (options : Options) (entry : String)
    (preloaded : Option LoadedModule) (file : Option String) :
    Tracked ((run library options entry preloaded file).run.run bundler).2 (bundler :: earlier) := by
  obtain ⟨outcome, new, loads, ran⟩ := exists_loads_run library options entry preloaded file bundler
  rw [ran]
  have learnt : bundler.session.Advances ({ bundler with entry := some entry }.extend new).session :=
    foldl_learn_advances new bundler.session
  have advances := complete_advances options entry file outcome ({ bundler with entry := some entry }.extend new)
  -- A stored chunk was there before, or it was found in this run; then the module was unknown.
  have origin : ∀ module ∈
      (complete options entry file outcome ({ bundler with entry := some entry }.extend new)).2.graph.modules,
      ∀ parsed, module.stage.parsed? = some parsed →
        (∃ old ∈ bundler.graph.modules, old.name = module.name ∧ old.stage.parsed? = some parsed) ∨
          module.name ∉ bundler.graph.names ∧ ∀ global ∈ parsed.chunk.globals,
            global ∈ ({ bundler with entry := some entry }.extend new).session.reserved := by
    intro module member parsed stored
    obtain ⟨old, inside, same, storedOld⟩ := stored_of_complete member stored
    obtain before | fresh := List.mem_append.mp inside
    · exact .inl ⟨old, before, same, storedOld⟩
    · refine .inr ⟨same ▸ loads.new_not_known old fresh, fun global used => ?_⟩
      exact mem_reserved_learn fresh storedOld used
  refine ⟨?_, ?_, ?_, ?_⟩
  · intro module member parsed stored global used
    obtain ⟨old, before, -, storedOld⟩ | ⟨-, fresh⟩ := origin module member parsed stored
    · exact advances.reserved (learnt.reserved (tracked.reserved old before parsed storedOld global used))
    · exact advances.reserved (fresh global used)
  · refine shows_complete fun module member => ?_
    obtain before | fresh := List.mem_append.mp member
    · exact (tracked.shows module before).advance learnt
    · exact fun parsed body done => absurd done ((loads.stages module fresh).2 parsed body)
  · intro module member parsed stored global used name given
    obtain ⟨old, before, same, storedOld⟩ | ⟨unknown, fresh⟩ := origin module member parsed stored
    · have reserved := tracked.reserved old before parsed storedOld global used
      have givenBefore := (learnt.trans advances).given given reserved
      obtain ⟨state, inside, missing, bound⟩ := tracked.early old before parsed storedOld global used name givenBefore
      exact ⟨state, List.mem_cons_of_mem _ inside, same ▸ missing, bound⟩
    · have givenBefore := advances.given given (fresh global used)
      exact ⟨bundler, List.mem_cons_self, unknown,
        (binding_foldl_learn new bundler.session name).symm.trans givenBefore⟩
  · refine List.forall_mem_cons.mpr ⟨learnt.trans advances, fun before inside => ?_⟩
    exact (tracked.kept before inside).trans (learnt.trans advances)

theorem History.tracked {states : List Bundler} (history : History library options states) :
    ∀ {state earlier}, states = state :: earlier → Tracked state earlier := by
  induction history with
  | start =>
      rintro state earlier ⟨⟩
      exact ⟨nofun, nofun, nofun, nofun⟩
  | run entry preloaded file _ ih =>
      rintro state earlier ⟨⟩
      exact (ih rfl).run library options entry preloaded file

def Included (options : Options) (entry : String) (graph : ModuleGraph) (module : Module) (parsed : ParsedModule)
    (body : Fragment) : Prop :=
  module ∈ graph.modules ∧ module.stage = .done parsed body ∧ (options.moduleMode = true ∨ module.name = entry)

/-- In the output of a run a local is spelled like a global of a module if and only if it had that short name before
the module was read, which takes an earlier run. The variables of the loader never are. -/
theorem spelling_eq_global_iff (history : History library options (bundler :: earlier))
    (ran : (run library options entry preloaded file).run.run bundler = (.ok output, after)) :
    (∃ front names gap,
        output.code = front ++ loaderText options entry after.graph names ++ gap ++ bodyText entry after.graph ∧
          ∀ module parsed body, Included options entry after.graph module parsed body →
            ∀ global ∈ parsed.chunk.globals, names.host ≠ global ∧ names.loaded ≠ global ∧ names.name ≠ global) ∧
      ∀ module parsed body, Included options entry after.graph module parsed body →
        ∃ session, body = ((parsed.chunk.print module.name).run session).1 ∧
          ∀ name spelling, name ≠ "self" → parsed.chunk.SpellsLocal session name spelling →
            ∀ other parsedOther bodyOther, Included options entry after.graph other parsedOther bodyOther →
              ∀ global ∈ parsedOther.chunk.globals, (spelling = global ↔
                ∃ state ∈ bundler :: earlier, other.name ∉ state.graph.names ∧
                  state.session.binding? name = some global) := by
  have tracked : Tracked after (bundler :: earlier) := by
    have behind := (history.tracked rfl).run library options entry preloaded file
    rwa [ran] at behind
  constructor
  · obtain ⟨new, loads, same⟩ := loads_of_run ran
    obtain ⟨front, gap, code⟩ := exists_text_complete same
    refine ⟨front, _, gap, code, fun module parsed body included global used => ?_⟩
    have reserved := tracked.reserved module included.1 parsed (by rw [included.2.1]; rfl) global used
    obtain ⟨-, rfl⟩ := Prod.mk.inj ((complete_ok ..).symm.trans same)
    rw [reserved_assemble] at reserved
    exact Session.loaderVariables_not_reserved reserved
  · intro module parsed body included
    obtain ⟨session, same, bound⟩ := tracked.shows module included.1 parsed body included.2.1
    refine ⟨session, same, fun name spelling different spelled other parsedOther bodyOther present global used => ?_⟩
    have given := bound name spelling different spelled
    constructor
    · rintro rfl
      exact tracked.early other present.1 parsedOther (by rw [present.2.1]; rfl) spelling used name given
    · rintro ⟨state, inside, -, bound⟩
      exact Option.some.inj (given.symm.trans ((tracked.kept state inside).bindings bound))

/-- In a single run no local is spelled like a global, also where the same name is local in one module and global in
another. -/
theorem spelling_eq_global_iff_shared :
    let library := Library.ofModules [("a", "local x=require'b' return x+y"), ("b", "local y=1 return y")]
    let options : Options := { moduleMode := true }
    History library options [.empty] ∧ ∃ output after,
      (run library options "a" none none).run.run .empty = (.ok output, after) ∧ after.graph.names = ["a", "b"] ∧
        ∀ module parsed body, Included options "a" after.graph module parsed body →
          ∃ session, body = ((parsed.chunk.print module.name).run session).1 ∧
            ∀ name spelling, name ≠ "self" → parsed.chunk.SpellsLocal session name spelling →
              ∀ other parsedOther bodyOther, Included options "a" after.graph other parsedOther bodyOther →
                spelling ∉ parsedOther.chunk.globals := by
  intro library options
  obtain ⟨output, fine⟩ : ∃ output, ((run library options "a" none none).run.run .empty).1 = .ok output :=
    exists_ok_of_toBool (by decide +kernel)
  have names : ((run library options "a" none none).run.run .empty).2.graph.names = ["a", "b"] := by decide +kernel
  have ran : (run library options "a" none none).run.run .empty = (.ok output, _) := Prod.ext fine rfl
  have spelled := (spelling_eq_global_iff .start ran).2
  refine ⟨.start, output, _, ran, names, fun module parsed body included => ?_⟩
  obtain ⟨session, same, apart⟩ := spelled module parsed body included
  refine ⟨session, same, fun name spelling different local_ other parsedOther bodyOther present used => ?_⟩
  obtain ⟨state, member, -, bound⟩ := (apart name spelling different local_ other _ _ present spelling used).mp rfl
  obtain rfl := List.mem_singleton.mp member
  simp [Bundler.empty, Session.empty, Session.binding?] at bound

end Runs

section Reuse

theorem printAll_append {modules : List Module}
    (printed : ∀ module ∈ modules, ∀ parsed, module.stage ≠ .generating parsed)
    (rest : List Module) (session : Session) : (printAll (modules ++ rest)).run session =
      (modules ++ ((printAll rest).run session).1, ((printAll rest).run session).2) := by
  induction modules with
  | nil => rfl
  | cons module others ih =>
      rw [List.forall_mem_cons] at printed
      have behind := ih printed.2
      obtain ⟨name, stage⟩ := module
      have kept : (printAll (⟨name, stage⟩ :: others ++ rest)).run session =
          (⟨name, stage⟩ :: ((printAll (others ++ rest)).run session).1,
            ((printAll (others ++ rest)).run session).2) := by
        cases stage with
        | generating parsed => exact absurd rfl (printed.1 parsed)
        | pending | done | failed => rfl
      rw [kept, behind]
      rfl

def printed (bundler : Bundler) (entry : String) (loaded : LoadedModule) (chunk : Chunk) : Bundler :=
  let session := bundler.session.reserve chunk.globals
  ⟨(chunk.body.spell session).2, ⟨bundler.graph.modules ++
    [⟨entry, .done ⟨loaded.path, loaded.source, chunk⟩ ((chunk.print entry).run session).1⟩]⟩, some entry⟩

theorem run_plain (library : Library) (options : Options) (entry : String) (loaded : LoadedModule)
    (file : Option String) (bundler : Bundler) {chunk : Chunk} (mode : options.moduleMode = false)
    (unknown : entry ∉ bundler.graph.names)
    (done : ∀ module ∈ bundler.graph.modules, ∀ parsed, module.stage ≠ .generating parsed)
    (read : Chunk.parse loaded.source = .ok chunk) :
    ∃ output, (run library options entry (some loaded) file).run.run bundler =
      (.ok output, bundler.printed entry loaded chunk) := by
  obtain ⟨outcome, new, loads, ran⟩ := exists_loads_run library options entry (some loaded) file bundler
  have opened : reader library entry (some loaded) entry = .ok (loaded, chunk) := by
    rw [reader_entry, parseModule, read]
    rfl
  rw [mode, requested, mode] at loads
  obtain ⟨rfl, rfl⟩ := loads.unique (.found List.not_mem_nil unknown opened .done .done)
  refine ⟨_, ran.trans ((complete_ok ..).trans (Prod.ext rfl ?_))⟩
  have plain : ∀ bundler : Bundler, (assemble options entry bundler).2 = bundler := by
    intro bundler
    simp only [assemble, mode]
    rfl
  have ranPrint := printAll_append done [⟨entry, .generating (parsed (loaded, chunk))⟩]
    (bundler.session.reserve chunk.globals)
  rw [plain]
  exact congrArg (fun result => (⟨result.2, ⟨result.1⟩, some entry⟩ : Bundler)) ranPrint

/-- A local of a second run keeps the short name of the first one, also where it is a global of the second. -/
theorem second_run_spells_global :
    let library := Library.ofModules []
    let first := ((run library {} "p" (some ⟨⟨""⟩, "local x"⟩) none).run.run .empty).2
    History library {} [first, .empty] ∧ ∃ output after,
      (run library {} "q" (some ⟨⟨""⟩, "local x=a"⟩) none).run.run first = (.ok output, after) ∧
        ∃ module parsed session,
          Included {} "q" after.graph module parsed ((parsed.chunk.print module.name).run session).1 ∧
          parsed.chunk.SpellsLocal session "x" "a" ∧ "a" ∈ parsed.chunk.globals := by
  intro library first
  have checkFirst : (Chunk.parse "local x").toOption.any (fun chunk => decide (chunk.globals = [] ∧
    chunk.body.occurrences.map (fun each => (each.name, each.isLocal)) = [("x", true)])) = true := by decide +kernel
  have checkSecond : (Chunk.parse "local x=a").toOption.any (fun chunk => decide (chunk.globals = ["a"] ∧
    chunk.body.occurrences.map (fun each => (each.name, each.isLocal)) = [("x", true), ("a", false)])) = true := by
    decide +kernel
  obtain ⟨chunk, read, holds⟩ := Chunk.exists_of_parse checkFirst
  obtain ⟨noGlobals, locals⟩ := of_decide_eq_true holds
  obtain ⟨later, readLater, holdsLater⟩ := Chunk.exists_of_parse checkSecond
  obtain ⟨globals, others⟩ := of_decide_eq_true holdsLater
  obtain ⟨_, ran⟩ := run_plain library {} "p" ⟨⟨""⟩, "local x"⟩ none .empty rfl List.not_mem_nil (fun _ => nofun) read
  have state : first = Bundler.empty.printed "p" ⟨⟨""⟩, "local x"⟩ chunk := congrArg Prod.snd ran
  obtain ⟨output, ranLater⟩ := run_plain library {} "q" ⟨⟨""⟩, "local x=a"⟩ none first rfl
    (by rw [state]; simp [printed, Bundler.empty, ModuleGraph.empty, names, namesOf])
    (by rw [state]; simp [printed, Bundler.empty, ModuleGraph.empty]) readLater
  have given : first.session.binding? "x" = some "a" := by
    obtain ⟨each, rest, listed, same, -⟩ := List.map_eq_cons_iff.mp locals
    obtain ⟨named, isLocal⟩ := Prod.mk.inj same
    have bound : (chunk.body.spell Session.empty).2.binding? each.name = some Session.empty.fresh.2 :=
      Block.binding_spell_first listed isLocal (by rw [named]; decide) (by simp [Session.binding?, Session.empty])
    rw [named, Session.fresh_empty] at bound
    rw [state, printed, noGlobals]
    exact bound
  refine ⟨.run "p" _ none .start, output, _, ranLater, _, _, first.session.reserve later.globals,
    ⟨List.mem_append.mpr (.inr List.mem_cons_self), rfl, .inr rfl⟩, ?_, by rw [globals]; simp⟩
  obtain ⟨each, rest, listed, same, -⟩ := List.map_eq_cons_iff.mp others
  obtain ⟨named, isLocal⟩ := Prod.mk.inj same
  have spelled : later.SpellsLocal (first.session.reserve later.globals) each.name "a" :=
    Chunk.spellsLocal_of_binding (by rw [listed]; exact List.mem_cons_self) isLocal (by rw [named]; decide)
      (by rw [named]; exact given)
  rwa [named] at spelled

end Reuse

end Bundler
end LuaMinifier
