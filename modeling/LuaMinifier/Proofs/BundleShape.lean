import LuaMinifier.Proofs.Capture
import LuaMinifier.Proofs.LoaderScope
import LuaMinifier.Proofs.LoaderText
import LuaMinifier.Proofs.QuotedName

/-!
The output of a run on a new bundler in module mode: it reads as the tree of a loader with one branch for each module,
and the statements of the entry behind it. No name of a module means a variable of the loader.
-/

namespace LuaMinifier

open Token

namespace Session

theorem Grows.isTaken {earlier later : Session} (grown : earlier.Grows later) {name : String}
    (taken : earlier.isTaken name = true) : later.isTaken name = true := by
  rw [isTaken_iff] at taken ⊢
  rw [grown.reserved]
  exact taken.imp_right (.imp_right (.imp_left grown.assigned))

theorem isTaken_fresh_self (session : Session) : session.fresh.1.isTaken session.fresh.2 = true :=
  isTaken_iff.mpr (.inr (.inr (.inl session.fresh_assigned)))

theorem fresh_ne {session : Session} {name : String} (taken : session.isTaken name = true) :
    name ≠ session.fresh.2 := by
  rintro rfl
  rw [session.isTaken_fresh] at taken
  cases taken

theorem written_fresh {session : Session} (sound : session.Sound) : (Kind.name session.fresh.2).Written := by
  obtain ⟨unreserved, -, -, named⟩ := fresh_free sound
  simp only [isReserved, Bool.or_eq_false_iff] at unreserved
  exact ⟨named, by simpa [isKeyword] using unreserved.1⟩

structure Draws (session : Session) (names : Loader.Variables) : Prop where
  written : names.Written
  apart : names.host ≠ names.loaded ∧ names.host ≠ names.name ∧ names.loaded ≠ names.name
  untaken : ∀ {name}, session.isTaken name = true → name ≠ names.host ∧ name ≠ names.loaded ∧ name ≠ names.name

theorem draws_loaderVariables {session : Session} (sound : session.Sound) :
    session.Draws (loaderVariables session).1 := by
  have first := session.fresh_grows
  have second := session.fresh.1.fresh_grows
  refine ⟨⟨written_fresh sound, written_fresh (first.sound sound), written_fresh (second.sound (first.sound sound))⟩,
    ⟨fresh_ne session.isTaken_fresh_self, fresh_ne (second.isTaken session.isTaken_fresh_self),
      fresh_ne session.fresh.1.isTaken_fresh_self⟩, fun taken => ?_⟩
  exact ⟨fresh_ne taken, fresh_ne (first.isTaken taken), fresh_ne (second.isTaken (first.isTaken taken))⟩

theorem isTaken_spell {session : Session} (sound : session.Sound) {body : Block Identifier}
    (reserves : session.Reserves body) :
    ∀ occurrence ∈ (body.spell session).1.occurrences, (body.spell session).2.isTaken occurrence.text = true := by
  have grown := spell_block_grows body session
  intro occurrence member
  rw [Block.occurrences_spelling] at member
  obtain ⟨identifier, inside, rfl⟩ := List.mem_map.mp member
  rw [isTaken_iff]
  simp only [spelling]
  split
  next isLocal =>
    have known := spell_knows body session identifier inside isLocal
    unfold shortName
    split
    · exact .inr (.inr (.inr rfl))
    next other =>
      obtain ⟨short, given⟩ := Option.isSome_iff_exists.mp (known other)
      rw [given]
      exact .inr (.inr (.inl ((grown.sound sound).assigned given)))
  next isGlobal => exact .inr (.inl (reserves.grow grown identifier inside (by simpa using isGlobal)))

end Session

namespace Block

theorem freeNames_congr {ι κ : Type} {first : Block ι} {second : Block κ} {text : ι → String} {other : κ → String}
    (same : first.view .exact text = second.view .exact other) : first.freeNames text = second.freeNames other := by
  rw [freeNames, freeNames, same]

theorem occurrences_of_view {ι κ : Type} {first : Block ι} {second : Block κ} {text : ι → String} {other : κ → String}
    (same : first.view .exact text = second.view .exact other) :
    first.occurrences.map text = second.occurrences.map other := by
  rw [← Block.occurrences_view .exact, ← Block.occurrences_view .exact, same]

end Block

namespace Loader

def Variables.words (names : Variables) : Labels String := names.labels.view Spelling.text

section Names

variable {ι : Type} {labels : Labels ι} {occurrence : ι}

theorem mem_occurrences_branches {modules : List (String × Block ι)} :
    occurrence ∈ (labels.branches modules).occurrences ↔
      occurrence ∈ [labels.host, labels.name] ∨ (modules ≠ [] ∧ occurrence = labels.loaded) ∨
        ∃ module ∈ modules, occurrence ∈ module.2.occurrences := by
  induction modules with
  | nil => simp [Labels.branches, reference, Block.occurrences, Expr.occurrencesAll, Expr.occurrences]
  | cons module rest ih =>
      simp [Labels.branches, Labels.branch, Labels.unset, Labels.slot, reference, Block.occurrences, Stat.occurrences,
        Else.occurrences, Expr.occurrencesAll, Expr.occurrences] at ih ⊢
      grind

theorem mem_occurrences_bundle {modules : List (String × Block ι)} {entry : Block ι} :
    occurrence ∈ (labels.bundle modules entry).occurrences ↔
      occurrence ∈ [labels.found, labels.host, labels.loaded, labels.name, labels.own] ∨
        (∃ module ∈ modules, occurrence ∈ module.2.occurrences) ∨ occurrence ∈ entry.occurrences := by
  have inside : occurrence ∈ (labels.branches modules).occurrences ↔ _ := mem_occurrences_branches
  simp [Labels.bundle, Labels.header, Labels.function, Labels.body, Labels.unset, Labels.slot, reference,
    Block.occurrences, Stat.occurrences, Else.occurrences, Expr.occurrencesAll, Expr.occurrences,
    Field.occurrencesAll] at inside ⊢
  grind

end Names

end Loader

/-- A chunk with the shape of a bundle: a loader with a branch for each of some chunks, under the string of its name,
and another chunk behind it. The variables of the loader are three names that occur in none of these chunks. -/
structure Chunk.IsBundle (chunk : Chunk) (names : Loader.Variables) (branches : List (String × Chunk)) (last : Chunk) :
    Prop where
  tree : chunk.body.view .exact Identifier.flagged =
    names.words.flagged.bundle
      (branches.map fun branch => (branch.1, branch.2.body.view .exact (Identifier.flaggedBelow "require")))
      (last.body.view .exact (Identifier.flaggedBelow "require"))
  quoted : ∀ branch ∈ branches, stringValue (quoteName branch.1) = some branch.1
  different : names.host ≠ names.loaded ∧ names.host ≠ names.name ∧ names.loaded ≠ names.name
  apart : ∀ part ∈ last :: branches.map (·.2), names.words.Apart part.body

theorem Block.mem_occurrences_flaggedBelow {body : Block Identifier} {own name : String} :
    (name, false) ∈ (body.view .exact (Identifier.flaggedBelow own)).occurrences ↔
      name ∈ body.globals ∧ name ≠ own := by
  rw [Block.occurrences_view, Block.mem_globals]
  simp only [List.mem_map, Identifier.flaggedBelow, Prod.mk.injEq, Bool.or_eq_false_iff, decide_eq_false_iff_not]
  constructor
  · rintro ⟨identifier, member, rfl, isGlobal, other⟩
    exact ⟨⟨identifier, member, isGlobal, rfl⟩, other⟩
  · rintro ⟨⟨identifier, member, isGlobal, rfl⟩, other⟩
    exact ⟨identifier, member, rfl, isGlobal, other⟩

theorem Chunk.IsBundle.mem_globals {chunk last : Chunk} {names : Loader.Variables} {branches : List (String × Chunk)}
    (bundle : chunk.IsBundle names branches last) (name : String) :
    name ∈ chunk.body.globals ↔
      name = "require" ∨ ∃ part ∈ last :: branches.map (·.2), name ∈ part.body.globals := by
  have listed : name ∈ chunk.body.globals ↔
      (name, false) ∈ (chunk.body.view .exact Identifier.flagged).occurrences := by
    rw [Block.occurrences_view, Block.mem_globals]
    simp [Identifier.flagged, and_comm]
  rw [listed, bundle.tree, Loader.mem_occurrences_bundle]
  have words : (name, false) ∈ [names.words.flagged.found, names.words.flagged.host, names.words.flagged.loaded,
      names.words.flagged.name, names.words.flagged.own] ↔ name = "require" := by
    simp [Loader.Labels.flagged, Loader.Variables.words, Loader.Variables.labels, Loader.Labels.view]
  have inside : (∃ module ∈ branches.map fun branch => (branch.1, branch.2.body.view .exact
      (Identifier.flaggedBelow "require")), (name, false) ∈ module.2.occurrences) ↔
        ∃ branch ∈ branches, name ∈ branch.2.body.globals ∧ name ≠ "require" := by
    simp only [List.mem_map, ← Block.mem_occurrences_flaggedBelow]
    constructor
    · rintro ⟨_, ⟨branch, member, rfl⟩, used⟩
      exact ⟨branch, member, used⟩
    · rintro ⟨branch, member, used⟩
      exact ⟨_, ⟨branch, member, rfl⟩, used⟩
  rw [words, inside, Block.mem_occurrences_flaggedBelow]
  simp only [List.mem_cons, List.mem_map]
  grind

namespace Bundler

open ModuleGraph

/-- A printed module: the block that its body prints, and the chunk that the body is read as. -/
structure Reading where
  name : String
  parsed : ParsedModule
  spelled : Block Spelling
  again : Chunk

def Reading.module (reading : Reading) : Module :=
  ⟨reading.name, .done reading.parsed (reading.spelled.print reading.name)⟩

/-- The body of a module is read as it was printed. A session that printed it knows all names that it shows. -/
structure Reading.Holds (reading : Reading) (session : Session) : Prop where
  formed : reading.spelled.Formed Kind.Written Spelling.Written
  read : Chunk.parse (reading.spelled.print reading.name).toText = .ok reading.again
  shown : reading.again.body.view .exact Identifier.name = reading.spelled.reread.view .exact Spelling.text
  resolved : reading.again.body.IsResolved
  taken : ∀ identifier ∈ reading.again.body.occurrences, session.isTaken identifier.name = true
  globals : reading.again.body.globals = reading.parsed.chunk.globals
  comments : ∀ comment ∈ reading.parsed.chunk.comments, comment.Closed

structure Waits (session : Session) (parsed : ParsedModule) : Prop where
  read : Chunk.parse parsed.source = .ok parsed.chunk
  numerals : hasNumerals parsed.source = true
  reserves : ∀ name ∈ parsed.chunk.globals, name ∈ session.reserved

section Printing

variable {session last : Session} {modules printed : List Module} {parsed : ParsedModule}

theorem Waits.exists_reading (waits : Waits session parsed) (sound : session.Sound) (name : String) :
    ∃ reading : Reading, reading.Holds ((parsed.chunk.print name).run session).2 ∧
      reading.module = ⟨name, .done parsed ((parsed.chunk.print name).run session).1⟩ := by
  obtain ⟨read, numerals, reserves⟩ := waits
  obtain ⟨path, source, chunk⟩ := parsed
  obtain ⟨lexed, tree, found, isRead, rfl⟩ := Chunk.parse_eq_ok.mp read
  let body := (tree.resolve.run .empty).1
  have formed : body.Formed Kind.Written fun identifier => (Kind.name identifier.name).Written :=
    Block.formed_resolve (Block.formed_of_ofTokens (written_of_hasNumerals numerals found) isRead)
  have known : session.Reserves body := fun identifier member isGlobal =>
    reserves _ (Block.mem_globals.mpr ⟨identifier, member, isGlobal, rfl⟩)
  have printable := Block.formed_spell sound formed
  obtain ⟨lexedAgain, treeAgain, foundAgain, -, readAgain, same⟩ := Block.read_print name printable
  have shown : (treeAgain.resolve.run .empty).1.view .exact Identifier.name =
      (body.spell session).1.reread.view .exact Spelling.text := (treeAgain.view_resolve .exact).trans same
  have taken : ∀ identifier ∈ (treeAgain.resolve.run .empty).1.occurrences,
      (body.spell session).2.isTaken identifier.name = true := by
    intro identifier member
    have listed := List.mem_map_of_mem (f := Identifier.name) member
    rw [Block.occurrences_of_view shown, Block.occurrences_reread] at listed
    obtain ⟨occurrence, inside, text⟩ := List.mem_map.mp listed
    rw [← text]
    exact Session.isTaken_spell sound known occurrence inside
  have globals : (treeAgain.resolve.run .empty).1.globals = body.globals := calc
    _ = (treeAgain.resolve.run .empty).1.freeNames Identifier.name := (Block.freeNames_resolve rfl).symm
    _ = (body.spell session).1.reread.freeNames Spelling.text := Block.freeNames_congr shown
    _ = (body.spell session).1.freeNames Spelling.text := Block.freeNames_reread ..
    _ = body.globals := Block.freeNames_spell sound rfl known
  refine ⟨⟨name, _, (body.spell session).1, .ofTree treeAgain lexedAgain.comments⟩, ?_, rfl⟩
  exact ⟨printable, Chunk.parse_eq_ok.mpr ⟨lexedAgain, treeAgain, foundAgain, readAgain, rfl⟩, shown, ⟨treeAgain, rfl⟩,
    taken, globals, Lexed.closed_of_ofText found⟩

theorem Prints.grows (prints : Prints session modules printed last) : session.Grows last := by
  induction prints with
  | nil => exact .refl _
  | kept _ _ ih => exact ih
  | printed _ ih => exact (Session.spell_block_grows _ _).trans ih

theorem Prints.exists_readings (prints : Prints session modules printed last) (sound : session.Sound)
    (waiting : ∀ module ∈ modules, ∃ parsed, module.stage = .generating parsed ∧ Waits session parsed) :
    ∃ readings : List Reading, printed = readings.map Reading.module ∧ ∀ reading ∈ readings, reading.Holds last := by
  induction prints with
  | nil => exact ⟨[], rfl, nofun⟩
  | kept other _ _ =>
      obtain ⟨parsed, stage, -⟩ := waiting _ List.mem_cons_self
      exact absurd stage (other parsed)
  | @printed session last name parsed rest printed prints ih =>
      have grown := Session.spell_block_grows parsed.chunk.body session
      obtain ⟨⟨other, stage, waits⟩, others⟩ := List.forall_mem_cons.mp waiting
      obtain rfl : parsed = other := Stage.generating.inj stage
      obtain ⟨first, holds, same⟩ := waits.exists_reading sound name
      -- Printing one body reserves nothing, so that the others still wait in a session that knows their globals.
      obtain ⟨readings, rfl, each⟩ := ih (grown.sound sound) fun module member => by
        obtain ⟨parsed, stage, waits⟩ := others module member
        exact ⟨parsed, stage, { waits with reserves := fun name used => grown.reserved ▸ waits.reserves name used }⟩
      refine ⟨first :: readings, by rw [List.map_cons, same], List.forall_mem_cons.mpr ⟨?_, each⟩⟩
      exact { holds with taken := fun identifier member => prints.grows.isTaken (holds.taken identifier member) }

end Printing

theorem namesOf_readings (readings : List Reading) :
    namesOf (readings.map Reading.module) = readings.map Reading.name := List.map_map ..

theorem bodiesExcept_readings (readings : List Reading) (entry : String) :
    bodiesExcept ⟨readings.map Reading.module⟩ entry =
      (readings.filter (·.name ≠ entry)).map fun reading => (reading.name, reading.spelled.print reading.name) := by
  induction readings with
  | nil => rfl
  | cons reading rest ih =>
      rw [List.map_cons, bodiesExcept_cons, ih]
      by_cases kept : reading.name = entry <;> simp [Reading.module, Stage.body?, kept]

end Bundler

/-- What a library holds is written with numerals of Lua, and no name in it has a carriage return. -/
def Library.IsStandard (library : Library) : Prop :=
  ∀ name loaded, library.load name = .ok loaded → '\r' ∉ name.toList ∧ hasNumerals loaded.source = true

theorem Library.isStandard_ofModules {modules : List (String × String)}
    (standard : ∀ module ∈ modules, '\r' ∉ module.1.toList ∧ hasNumerals module.2 = true) :
    (Library.ofModules modules).IsStandard := by
  intro name loaded found
  have opened : Library.lookup modules name = .ok loaded := found
  unfold Library.lookup at opened
  cases present : modules.reverse.lookup name with
  | none =>
      rw [present] at opened
      exact absurd opened (by simp)
  | some source =>
      rw [present] at opened
      obtain ⟨before, behind, split, -⟩ := List.lookup_eq_some_iff.mp present
      have member : (name, source) ∈ modules := List.mem_reverse.mp (by simp [split])
      have same : loaded.source = source := congrArg LoadedModule.source (Except.ok.inj opened).symm
      rw [same]
      exact standard _ member

namespace Bundler

open ModuleGraph

section Runs

variable {library : Library} {options : Options} {entry : String} {preloaded : Option LoadedModule}
  {file : Option String} {bundler after : Bundler} {output : Output}

theorem unused_foldl_learn {session : Session} (unused : session.Unused) (new : List Module) :
    (new.foldl learn session).Unused := by
  induction new generalizing session with
  | nil => exact unused
  | cons module rest ih =>
      refine ih ?_
      unfold learn
      split
      · exact unused.reserve _
      · exact unused

theorem waits_of_loads {follow : Bool} {known requests : List String} {new : List Module} {session : Session}
    (standard : library.IsStandard) (given : ∀ loaded, preloaded = some loaded → hasNumerals loaded.source = true)
    (loads : Loads (reader library entry preloaded) follow [] known requests (.ok ()) new) :
    ∀ module ∈ new, (module.name ≠ entry → '\r' ∉ module.name.toList) ∧
      ∃ parsed, module.stage = .generating parsed ∧ Waits (new.foldl learn session) parsed := by
  intro module member
  obtain ⟨found, opened, stage⟩ := loads.generating rfl module member
  obtain ⟨source, read⟩ := read_eq_ok opened
  have reserves : ∀ name ∈ found.2.globals, name ∈ (new.foldl learn session).reserved := fun name used =>
    mem_reserved_learn member (by rw [stage]; rfl) used
  refine ⟨fun other => ?_, parsed found, stage, read, ?_, reserves⟩
  · rw [if_neg other] at source
    obtain none | ⟨-, loaded⟩ := source
    · cases none
    · exact (standard _ _ loaded).1
  · obtain preload | ⟨-, loaded⟩ := source
    · split at preload
      · exact given _ preload
      · cases preload
    · exact (standard _ _ loaded).2

theorem preorder_run (mode : options.moduleMode = true)
    (ran : (run library options entry preloaded file).run.run .empty = (.ok output, after)) :
    Preorder (reader library entry preloaded) [] (entry :: options.extraModules) after.graph.names := by
  obtain ⟨new, loads, done⟩ := loads_of_run ran
  have names := congrArg (fun pair => pair.2.graph.names) done
  simp only [graph_complete, names_printModules, names_extend] at names
  rw [mode, requested, if_pos mode] at loads
  rw [← names]
  exact loads.preorder rfl

theorem code_complete (mode : options.moduleMode = true)
    (done : complete options entry file (.ok ()) bundler = (.ok output, after)) {body : Fragment}
    (printed : (after.graph.find? entry).bind (·.stage.body?) = some body) :
    output.code = (((Fragment.empty.append (Loader.ofModules (Session.loaderVariables bundler.printModules.session).1
      (after.graph.bodiesExcept entry)).toPiece).join body.toPiece).withPragmas entry
        (keptComments options entry after.graph)).toText := by
  obtain ⟨finished, rfl⟩ := Prod.mk.inj ((complete_ok ..).symm.trans done)
  obtain rfl := Except.ok.inj finished
  rw [graph_assemble] at printed ⊢
  have code := assemble_eq options entry bundler.printModules
  rw [withBody, printed, preamble, if_pos mode] at code
  exact congrArg Fragment.toText code

/-- A loader with bodies that can be read again, and such a body behind it, reads as a bundle of what they are read
as. -/
theorem exists_isBundle {session : Session} (sound : session.Sound) {readings : List Reading} {last : Reading}
    (each : ∀ reading ∈ readings, '\r' ∉ reading.name.toList ∧ reading.Holds session) (behind : last.Holds session)
    {kept : List Comment} (closed : ∀ comment ∈ kept, comment.Closed) :
    ∃ chunk, Chunk.parse (((Fragment.empty.append (Loader.ofModules (Session.loaderVariables session).1
        (readings.map fun reading => (reading.name, reading.spelled.print reading.name))).toPiece).join
          (last.spelled.print last.name).toPiece).withPragmas last.name kept).toText = .ok chunk ∧
      chunk.IsBundle (Session.loaderVariables session).1 (readings.map fun reading => (reading.name, reading.again))
        last.again ∧ chunk.globals = chunk.body.globals := by
  obtain ⟨written, different, untaken⟩ := Session.draws_loaderVariables sound
  let names := (Session.loaderVariables session).1
  -- The loader takes its names last, when all that the bodies show is taken.
  have apart : ∀ reading : Reading, reading.Holds session → names.words.Apart reading.again.body :=
    fun reading holds identifier member => untaken (holds.taken identifier member)
  have formed : ∀ module ∈ readings.map fun reading => (reading.name, reading.spelled),
      (Kind.string (quoteName module.1)).Written ∧ module.2.Formed Kind.Written Spelling.Written := by
    intro module member
    obtain ⟨reading, inside, rfl⟩ := List.mem_map.mp member
    exact ⟨written_quoteName (each reading inside).1, (each reading inside).2.formed⟩
  obtain ⟨lexed, tree, found, read, shown⟩ := Loader.read_bundle written formed behind.formed closed last.name
    (congrArg (Loader.ofModules names) (List.map_map ..).symm)
  let bodies := readings.map fun reading => (reading.name, reading.again.body)
  have same : (tree.resolve.run .empty).1.view .exact Identifier.name =
      names.words.bundle (bodies.map fun module => (module.1, module.2.view .exact Identifier.name))
        (last.again.body.view .exact Identifier.name) := by
    rw [tree.view_resolve, shown, Loader.view_bundle, behind.shown, List.map_map, List.map_map, List.map_map]
    refine congrArg (Loader.Labels.bundle _ · _) (List.map_congr_left fun reading member => ?_)
    exact congrArg (Prod.mk _) (each reading member).2.shown.symm
  have within : ∀ module ∈ bodies, module.2.IsResolved ∧ names.words.Apart module.2 := by
    intro module member
    obtain ⟨reading, inside, rfl⟩ := List.mem_map.mp member
    exact ⟨(each reading inside).2.resolved, apart reading (each reading inside).2⟩
  refine ⟨.ofTree tree lexed.comments, Chunk.parse_eq_ok.mpr ⟨lexed, tree, found, read, rfl⟩,
    ⟨?_, fun branch _ => stringValue_quoteName branch.1, different, ?_⟩, rfl⟩
  · have flags := Loader.flagged_bundle ⟨tree, rfl⟩ same within behind.resolved (apart last behind)
    rw [List.map_map] at flags ⊢
    exact flags
  · intro part member
    rw [List.map_map, List.mem_cons, List.mem_map] at member
    obtain rfl | ⟨reading, inside, rfl⟩ := member
    · exact apart last behind
    · exact apart reading (each reading inside).2

theorem exists_readings_run (standard : library.IsStandard)
    (given : ∀ loaded, preloaded = some loaded → hasNumerals loaded.source = true) {new : List Module}
    {follow : Bool} (loads : Loads (reader library entry preloaded) follow [] [] (requested options entry) (.ok ()) new)
    (found : Bundler) (same : found = extend ⟨.empty, .empty, some entry⟩ new) :
    found.printModules.session.Sound ∧ ∃ readings : List Reading,
      found.printModules.graph = ⟨readings.map Reading.module⟩ ∧ readings.map Reading.name = namesOf new ∧
        ∀ reading ∈ readings, reading.Holds found.printModules.session ∧
          (reading.name ≠ entry → '\r' ∉ reading.name.toList) := by
  have prints : Prints found.session new found.printModules.graph.modules found.printModules.session := by
    have whole := prints_printModules found
    rwa [same] at whole ⊢
  have sound : found.session.Sound := by
    rw [same]
    exact (unused_foldl_learn Session.empty_unused new).sound
  have waits : ∀ module ∈ new, (module.name ≠ entry → '\r' ∉ module.name.toList) ∧
      ∃ parsed, module.stage = .generating parsed ∧ Waits found.session parsed := by
    rw [same]
    exact waits_of_loads standard given loads
  obtain ⟨readings, modules, each⟩ := prints.exists_readings sound fun module member => (waits module member).2
  have names : readings.map Reading.name = namesOf new := by
    rw [← prints.namesOf_eq, modules, namesOf_readings]
  refine ⟨prints.grows.sound sound, readings, congrArg ModuleGraph.mk modules, names, fun reading member => ?_⟩
  refine ⟨each reading member, fun other => ?_⟩
  have named : reading.name ∈ namesOf new := names ▸ List.mem_map_of_mem member
  obtain ⟨module, inside, name⟩ := List.mem_map.mp named
  rw [← name]
  exact (waits module inside).1 (name ▸ other)

/-- What a run leaves of a new bundler: its modules with what their bodies are read as, the entry among them, and the
code that they are put together to. -/
structure Assembled (options : Options) (graph : ModuleGraph) (code : String) (session : Session)
    (readings : List Reading) (last : Reading) : Prop where
  sound : session.Sound
  modules : graph = ⟨readings.map Reading.module⟩
  nodup : (readings.map Reading.name).Nodup
  member : last ∈ readings
  holds : ∀ reading ∈ readings, reading.Holds session
  plain : ∀ reading ∈ readings, reading.name ≠ last.name → '\r' ∉ reading.name.toList
  found : graph.find? last.name = some last.module
  text : code = (((Fragment.empty.append (Loader.ofModules (Session.loaderVariables session).1
    (graph.bodiesExcept last.name)).toPiece).join (last.spelled.print last.name).toPiece).withPragmas last.name
      (keptComments options last.name graph)).toText

theorem exists_assembled (standard : library.IsStandard)
    (given : ∀ loaded, preloaded = some loaded → hasNumerals loaded.source = true) (mode : options.moduleMode = true)
    (ran : (run library options entry preloaded file).run.run .empty = (.ok output, after)) :
    ∃ session readings last, last.name = entry ∧ Assembled options after.graph output.code session readings last := by
  obtain ⟨new, loads, done⟩ := loads_of_run ran
  obtain ⟨sound, readings, graph, order, each⟩ := exists_readings_run standard given loads _ rfl
  have modules : after.graph = ⟨readings.map Reading.module⟩ := by
    rw [← graph, ← graph_complete options entry file]
    exact congrArg (·.2.graph) done.symm
  have nodup : (readings.map Reading.name).Nodup := order ▸ loads.new_nodup
  obtain ⟨last, member, rfl⟩ : ∃ last ∈ readings, last.name = entry := by
    have asked := requested_after_run ran entry List.mem_cons_self
    rw [modules, ModuleGraph.names, namesOf_readings] at asked
    exact List.mem_map.mp asked
  have found : after.graph.find? last.name = some last.module := by
    rw [modules]
    exact find?_of_mem (namesOf_readings readings ▸ nodup) (List.mem_map_of_mem member)
  have text := code_complete mode done (by rw [found]; rfl)
  exact ⟨_, readings, last, rfl, sound, modules, nodup, member, fun reading inside => (each reading inside).1,
    fun reading inside => (each reading inside).2, found, text⟩

namespace Assembled

variable {graph : ModuleGraph} {code : String} {session : Session} {readings : List Reading} {last : Reading}

theorem names (assembled : Assembled options graph code session readings last) :
    graph.names = readings.map Reading.name := by
  rw [assembled.modules]
  exact namesOf_readings readings

theorem bodies (assembled : Assembled options graph code session readings last) :
    graph.bodiesExcept last.name =
      (readings.filter (·.name ≠ last.name)).map fun reading => (reading.name, reading.spelled.print reading.name) := by
  rw [assembled.modules]
  exact bodiesExcept_readings readings last.name

theorem exists_bundle (assembled : Assembled options graph code session readings last) :
    ∃ chunk, Chunk.parse code = .ok chunk ∧
      chunk.IsBundle (Session.loaderVariables session).1
        ((readings.filter (·.name ≠ last.name)).map fun reading => (reading.name, reading.again)) last.again ∧
      chunk.globals = chunk.body.globals := by
  have closed : ∀ comment ∈ keptComments options last.name graph, comment.Closed := by
    rw [keptComments, assembled.found]
    exact fun comment kept => (assembled.holds last assembled.member).comments comment (pragmas_subset _ _ kept)
  rw [assembled.text, assembled.bodies]
  refine exists_isBundle assembled.sound (fun reading inside => ?_) (assembled.holds last assembled.member) closed
  obtain ⟨listed, other⟩ := List.mem_filter.mp inside
  exact ⟨assembled.plain reading listed (by simpa using other), assembled.holds reading listed⟩

theorem exists_part_iff (assembled : Assembled options graph code session readings last) (name : String) :
    (∃ part ∈ last.again ::
        ((readings.filter (·.name ≠ last.name)).map fun reading => (reading.name, reading.again)).map (·.2),
      name ∈ part.body.globals) ↔
      ∃ module ∈ graph.modules, ∃ parsed, module.stage.parsed? = some parsed ∧ name ∈ parsed.chunk.globals := by
  have used : ∀ reading ∈ readings, name ∈ reading.again.body.globals ↔ name ∈ reading.parsed.chunk.globals :=
    fun reading member => by rw [(assembled.holds reading member).globals]
  rw [assembled.modules, List.map_map]
  constructor
  · rintro ⟨part, inside, uses⟩
    obtain ⟨reading, listed, rfl⟩ : ∃ reading ∈ readings, reading.again = part := by
      obtain rfl | others := List.mem_cons.mp inside
      · exact ⟨last, assembled.member, rfl⟩
      · obtain ⟨reading, listed, rfl⟩ := List.mem_map.mp others
        exact ⟨reading, (List.mem_filter.mp listed).1, rfl⟩
    exact ⟨_, List.mem_map_of_mem listed, _, rfl, (used reading listed).mp uses⟩
  · rintro ⟨_, inside, parsed, stored, uses⟩
    obtain ⟨reading, listed, rfl⟩ := List.mem_map.mp inside
    obtain rfl := Option.some.inj stored
    by_cases same : reading.name = last.name
    · have found : find? ⟨readings.map Reading.module⟩ reading.name = some reading.module :=
        find?_of_mem (namesOf_readings readings ▸ assembled.nodup) (List.mem_map_of_mem listed)
      have modules : reading.module = last.module := by
        rw [same, ← assembled.modules, assembled.found] at found
        exact (Option.some.inj found).symm
      have parsed : reading.parsed = last.parsed := (Stage.done.inj (congrArg Module.stage modules)).1
      exact ⟨last.again, List.mem_cons_self, (used last assembled.member).mpr (parsed ▸ uses)⟩
    · refine ⟨reading.again, List.mem_cons_of_mem _ (List.mem_map.mpr ⟨reading, ?_, rfl⟩),
        (used reading listed).mpr uses⟩
      exact List.mem_filter.mpr ⟨listed, by simpa using same⟩

end Assembled

/-- The output of a run on a new bundler in module mode reads as a bundle of what its printed bodies read as: a branch
for each module but the entry, in the order in which they were found, and the entry. Its globals are `require` and
those of its modules. -/
theorem run_isBundle (standard : library.IsStandard)
    (given : ∀ loaded, preloaded = some loaded → hasNumerals loaded.source = true) (mode : options.moduleMode = true)
    (ran : (run library options entry preloaded file).run.run .empty = (.ok output, after)) :
    ∃ chunk names branches last, Chunk.parse output.code = .ok chunk ∧ chunk.IsBundle names branches last ∧
      Preorder (reader library entry preloaded) [] (entry :: options.extraModules) after.graph.names ∧
      branches.map (·.1) = after.graph.names.filter (· ≠ entry) ∧
      (after.graph.bodiesExcept entry).map (fun body => (body.1, Chunk.parse body.2.toText)) =
        branches.map (fun branch => (branch.1, .ok branch.2)) ∧
      (∃ parsed body, after.graph.find? entry = some ⟨entry, .done parsed body⟩ ∧
        Chunk.parse body.toText = .ok last) ∧
      ∀ name, name ∈ chunk.globals ↔ name = "require" ∨
        ∃ module ∈ after.graph.modules, ∃ parsed, module.stage.parsed? = some parsed ∧ name ∈ parsed.chunk.globals := by
  obtain ⟨session, readings, last, rfl, assembled⟩ := exists_assembled standard given mode ran
  obtain ⟨chunk, read, bundle, globals⟩ := assembled.exists_bundle
  refine ⟨chunk, _, _, last.again, read, bundle, preorder_run mode ran, ?_, ?_,
    ⟨_, _, assembled.found, (assembled.holds last assembled.member).read⟩, fun name => ?_⟩
  · rw [assembled.names, List.filter_map, List.map_map]
    rfl
  · rw [assembled.bodies, List.map_map, List.map_map]
    refine List.map_congr_left fun reading inside => congrArg (Prod.mk _) ?_
    exact (assembled.holds reading (List.mem_filter.mp inside).1).read
  · rw [globals, bundle.mem_globals, assembled.exists_part_iff]

/-- An entry that returns, a module that starts with a parenthesis and an empty one. -/
theorem run_isBundle_spliced :
    let library := Library.ofModules [("p", "(f)()"), ("e", "")]
    let preloaded : LoadedModule := ⟨⟨""⟩, "local x=require'p'return x,a"⟩
    let options : Options := { moduleMode := true, extraModules := ["e"] }
    library.IsStandard ∧ hasNumerals preloaded.source = true ∧ ∃ output after,
      (run library options "m" (some preloaded) none).run.run .empty = (.ok output, after) ∧
        ∃ chunk names branches last, Chunk.parse output.code = .ok chunk ∧ chunk.IsBundle names branches last ∧
          branches.map (·.1) = ["p", "e"] := by
  intro library preloaded options
  have standard : library.IsStandard := Library.isStandard_ofModules (by decide +kernel)
  have numerals : hasNumerals preloaded.source = true := by decide +kernel
  obtain ⟨output, fine⟩ : ∃ output, ((run library options "m" (some preloaded) none).run.run .empty).1 = .ok output :=
    exists_ok_of_toBool (by decide +kernel)
  have names : ((run library options "m" (some preloaded) none).run.run .empty).2.graph.names = ["m", "p", "e"] := by
    decide +kernel
  have ran : (run library options "m" (some preloaded) none).run.run .empty = (.ok output, _) := Prod.ext fine rfl
  obtain ⟨chunk, words, branches, last, read, bundle, -, listed, -⟩ :=
    run_isBundle standard (by rintro _ ⟨⟩; exact numerals) rfl ran
  rw [names] at listed
  exact ⟨standard, numerals, output, _, ran, chunk, words, branches, last, read, bundle, listed⟩

end Runs

end Bundler
end LuaMinifier
