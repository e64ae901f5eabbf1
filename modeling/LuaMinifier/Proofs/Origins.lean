import LuaMinifier.Proofs.FragmentText
import LuaMinifier.Proofs.MapBuilding

/-!
What the map of a finished fragment says about the fragment's nodes. A node with an origin begins at a place of the
text: behind all that is written in front of it. Main statement: the map has one segment for each such place, from the
last node that begins there, and it lists the sources of all modules in the order in which the nodes name them.
-/

namespace LuaMinifier

open SourceMap

/-- Where a node with an origin begins: behind a text. -/
structure Beginning where
  before : List Char
  origin : Origin
  name : Option String

/-- The nodes of a part that have an origin, where the part stands behind a text. A node comes before those in it. -/
def Piece.beginnings (before : List Char) : Piece → List Beginning
  | .empty => []
  | .text _ => []
  | .node origin name body => (origin.map (⟨before, ·, name⟩)).toList ++ body.beginnings before
  | .append first second => first.beginnings before ++ second.beginnings (before ++ first.chars)

def Fragment.beginnings (fragment : Fragment) : List Beginning := fragment.toPiece.beginnings []

/-- The modules that nodes are made from, in the order in which they are first met. -/
def modulesOf (nodes : List Beginning) : List String := (nodes.map (·.origin.module)).eraseDups

namespace Beginning

def place (node : Beginning) : Position := ⟨lineFeeds (utf8 node.before), bytesSinceLineFeed (utf8 node.before)⟩

/-- What a map says about a node, where the sources are those of some modules. Maps count lines from zero. -/
def segment (modules : List String) (node : Beginning) : Segment where
  place := node.place
  origin := some (modules.idxOf node.origin.module, ⟨node.origin.position.line - 1, node.origin.position.column⟩)
  name := node.name

def mapping (modules : List String) (node : Beginning) : Mapping :=
  .ofMark (modules.idxOf node.origin.module) node.place node.origin.position node.name

/-- A node behind which no other one begins at the same place. -/
def IsLastOf (nodes : List Beginning) (node : Beginning) : Prop :=
  ∃ earlier later, nodes = earlier ++ node :: later ∧ ∀ other ∈ later, other.place ≠ node.place

theorem exists_isLastOf {nodes : List Beginning} {node : Beginning} (member : node ∈ nodes) :
    ∃ last : Beginning, last.IsLastOf nodes ∧ last.place = node.place := by
  induction nodes generalizing node with
  | nil => cases member
  | cons first rest ih =>
      by_cases again : ∃ other ∈ rest, other.place = node.place
      · obtain ⟨other, inside, same⟩ := again
        obtain ⟨last, ⟨earlier, later, rfl, free⟩, place⟩ := ih inside
        exact ⟨last, ⟨first :: earlier, later, rfl, free⟩, place.trans same⟩
      · rw [not_exists] at again
        obtain rfl | later := List.mem_cons.mp member
        · exact ⟨node, ⟨[], rest, rfl, fun other inside same => again other ⟨inside, same⟩⟩, rfl⟩
        · exact absurd ⟨later, rfl⟩ (again node)

theorem mem_segments (modules : List String) (nodes : List Beginning) (segment : Segment) :
    segment ∈ (lastAtPlaces (nodes.map (·.mapping modules))).map Segment.ofMapping ↔
      ∃ node : Beginning, node.IsLastOf nodes ∧ segment = node.segment modules := by
  rw [List.mem_map]
  constructor
  · rintro ⟨mapping, kept, rfl⟩
    obtain ⟨earlier, later, split, free⟩ := mem_lastAtPlaces_iff.mp kept
    obtain ⟨front, back, rfl, -, tail⟩ := List.map_eq_append_iff.mp split
    obtain ⟨node, behind, rfl, rfl, rfl⟩ := List.map_eq_cons_iff.mp tail
    exact ⟨node, ⟨front, behind, rfl, fun other inside => free _ (List.mem_map_of_mem inside)⟩, rfl⟩
  · rintro ⟨node, ⟨earlier, later, rfl, free⟩, rfl⟩
    refine ⟨node.mapping modules, mem_lastAtPlaces_iff.mpr ⟨_, _, List.map_append, ?_⟩, rfl⟩
    intro other member
    obtain ⟨behind, inside, rfl⟩ := List.mem_map.mp member
    exact free behind inside

end Beginning

section Modules

variable {nodes : List Beginning}

theorem mem_modulesOf {module : String} : module ∈ modulesOf nodes ↔ ∃ node ∈ nodes, node.origin.module = module := by
  rw [modulesOf, List.mem_eraseDups, List.mem_map]

/-- A module is added to those met so far unless it is one of them. -/
def meet (modules : List String) (module : String) : List String :=
  if module ∈ modules then modules else modules ++ [module]

theorem modulesOf_concat (nodes : List Beginning) (node : Beginning) :
    modulesOf (nodes ++ [node]) = meet (modulesOf nodes) node.origin.module := by
  rw [modulesOf, List.map_append, List.eraseDups_append, meet]
  by_cases met : node.origin.module ∈ modulesOf nodes
  · have again := List.mem_eraseDups.mp met
    rw [if_pos met, List.map_singleton, List.cons_removeAll, if_neg (by simpa using again)]
    exact List.append_nil _
  · have first := mt List.mem_eraseDups.mpr met
    rw [if_neg met, List.map_singleton, List.cons_removeAll, if_pos (by simpa using first)]
    rfl

theorem mem_meet {modules : List String} {module other : String} :
    other ∈ meet modules module ↔ other ∈ modules ∨ other = module := by
  unfold meet
  split
  next met => exact ⟨.inl, fun either => either.elim id (· ▸ met)⟩
  next => rw [List.mem_append, List.mem_singleton]

theorem idxOf_meet {modules : List String} {other : String} (met : other ∈ modules) (module : String) :
    (meet modules module).idxOf other = modules.idxOf other := by
  unfold meet
  split
  · rfl
  · rw [List.idxOf_append, if_pos met]

theorem map_mapping_meet (nodes : List Beginning) (module : String) :
    nodes.map (·.mapping (meet (modulesOf nodes) module)) = nodes.map (·.mapping (modulesOf nodes)) := by
  apply List.map_congr_left
  intro node member
  rw [Beginning.mapping, idxOf_meet (mem_modulesOf.mpr ⟨node, member, rfl⟩)]
  rfl

/-- Whether modules have paths of their own. -/
def PathsDiffer (describe : String → SourceEntry) (modules : List String) : Prop :=
  ∀ first ∈ modules, ∀ second ∈ modules, (describe first).path = (describe second).path → first = second

theorem PathsDiffer.of_append {describe : String → SourceEntry} {front back : List Beginning}
    (differ : PathsDiffer describe (modulesOf (front ++ back))) :
    PathsDiffer describe (modulesOf front) := by
  have inside : ∀ module ∈ modulesOf front, module ∈ modulesOf (front ++ back) := by
    intro module member
    obtain ⟨node, found, named⟩ := mem_modulesOf.mp member
    exact mem_modulesOf.mpr ⟨node, List.mem_append_left _ found, named⟩
  intro first firstIn second secondIn same
  exact differ first (inside first firstIn) second (inside second secondIn) same

end Modules

theorem Piece.events_eq (piece : Piece) (rest : List Event) : piece.events rest = piece.events [] ++ rest := by
  induction piece generalizing rest with
  | empty => rfl
  | text written => rfl
  | node origin name body ih => cases origin <;> simp only [events, ih rest, List.cons_append]
  | append first second ihFirst ihSecond =>
      rw [events, events, ihFirst (second.events rest), ihFirst (second.events []), ihSecond rest, List.append_assoc]

namespace Recording

variable {describe : String → SourceEntry} {recording : Recording} {modules : List String}

/-- The sources and the contents of a map are those of some modules, and every module is known by its index. -/
structure Indexes (describe : String → SourceEntry) (modules : List String) (recording : Recording) : Prop where
  known : ∀ module, recording.modules.lookup module =
    if module ∈ modules then some (modules.idxOf module) else none
  sources : recording.builder.sources = modules.map fun module => (describe module).path
  contents : ∀ index, recording.builder.contents.lookup index =
    modules[index]?.bind fun module => (describe module).content

theorem indexOf_new {module : String} (unknown : recording.modules.lookup module = none)
    (new : (describe module).path ∉ recording.builder.sources) :
    recording.indexOf describe module =
      (⟨{ recording.builder with
          sources := recording.builder.sources ++ [(describe module).path]
          contents := ((describe module).content.map (recording.builder.sources.length, ·)).toList ++
            recording.builder.contents },
        (module, recording.builder.sources.length) :: recording.modules⟩, recording.builder.sources.length) := by
  simp only [indexOf, unknown, Builder.addSource, List.contains_eq_mem, new, decide_false]
  cases (describe module).content <;> rfl

/-- A module is listed when it is first met, if its path is its own. -/
theorem Indexes.indexOf (indexes : recording.Indexes describe modules) (module : String)
    (own : ∀ other ∈ modules, (describe other).path = (describe module).path → other = module) :
    ∃ next, recording.indexOf describe module = (next, (meet modules module).idxOf module) ∧
      next.Indexes describe (meet modules module) ∧ next.builder.place = recording.builder.place ∧
      next.builder.mappings = recording.builder.mappings := by
  have found := indexes.known module
  unfold meet
  by_cases met : module ∈ modules
  · rw [if_pos met] at found ⊢
    exact ⟨recording, by rw [Recording.indexOf, found], indexes, rfl, rfl⟩
  · rw [if_neg met] at found ⊢
    have new : (describe module).path ∉ recording.builder.sources := by
      rw [indexes.sources, List.mem_map]
      rintro ⟨other, inside, same⟩
      exact met (own other inside same ▸ inside)
    have length : recording.builder.sources.length = modules.length := by rw [indexes.sources, List.length_map]
    have index : (modules ++ [module]).idxOf module = modules.length := by simp [List.idxOf_append, met]
    rw [indexOf_new found new, index, length]
    refine ⟨_, rfl, ⟨?_, ?_, ?_⟩, rfl, rfl⟩
    · intro other
      by_cases same : other = module
      · subst same
        simp [index]
      · rw [List.lookup_cons, beq_false_of_ne same]
        simp only [indexes.known, List.mem_append, List.mem_singleton, same, or_false]
        by_cases inside : other ∈ modules
        · simp [inside, List.idxOf_append]
        · simp [inside]
    · simp [indexes.sources]
    · intro other
      by_cases same : other = modules.length
      · subst same
        have missing := indexes.contents modules.length
        rw [List.getElem?_eq_none (Nat.le_refl _), Option.bind_none] at missing
        cases content : (describe module).content with
        | none => simpa [content] using missing
        | some text => simp [content]
      · have others : (modules ++ [module])[other]? = modules[other]? := by grind
        rw [others, ← indexes.contents]
        cases (describe module).content with
        | none => rfl
        | some content => simp [List.lookup_cons, beq_false_of_ne same]

/-- What is known when a text and the nodes in it have been read. -/
structure Tracks (describe : String → SourceEntry) (text : List Char) (nodes : List Beginning)
    (recording : Recording) : Prop where
  keeps : recording.builder.Keeps text (nodes.map (·.mapping (modulesOf nodes)))
  indexes : recording.Indexes describe (modulesOf nodes)

variable {text : List Char} {nodes : List Beginning}

theorem Tracks.write (tracks : recording.Tracks describe text nodes) (written : String) :
    (recording.step describe (.text written)).Tracks describe (text ++ written.toList) nodes := by
  refine ⟨tracks.keeps.advance written, tracks.indexes.known, ?_, ?_⟩ <;> rw [step, Builder.advance_eq]
  · exact tracks.indexes.sources
  · exact tracks.indexes.contents

theorem Tracks.mark (tracks : recording.Tracks describe text nodes) (origin : Origin) (name : Option String)
    (differ : PathsDiffer describe (modulesOf (nodes ++ [⟨text, origin, name⟩]))) :
    (recording.step describe (.mark origin name)).Tracks describe text (nodes ++ [⟨text, origin, name⟩]) := by
  rw [modulesOf_concat] at differ
  have own : ∀ other ∈ modulesOf nodes, (describe other).path = (describe origin.module).path →
      other = origin.module := fun other inside =>
    differ other (mem_meet.mpr (.inl inside)) origin.module (mem_meet.mpr (.inr rfl))
  obtain ⟨next, found, indexes, place, mappings⟩ := tracks.indexes.indexOf origin.module own
  have keeps := (tracks.keeps.of_eq place mappings).mark ((meet (modulesOf nodes) origin.module).idxOf origin.module)
    origin.position name
  rw [step, found]
  refine ⟨?_, ?_⟩
  · rw [modulesOf_concat, List.map_append, map_mapping_meet]
    rw [place, tracks.keeps.place_eq] at keeps
    exact keeps
  · rw [modulesOf_concat]
    exact ⟨indexes.known, (Builder.sources_addMapping ..).trans indexes.sources, by
      intro index
      rw [Builder.contents_addMapping]
      exact indexes.contents index⟩

theorem Tracks.piece (tracks : recording.Tracks describe text nodes) (piece : Piece)
    (differ : PathsDiffer describe (modulesOf (nodes ++ piece.beginnings text))) :
    ((piece.events []).foldl (step describe) recording).Tracks describe (text ++ piece.chars)
      (nodes ++ piece.beginnings text) := by
  induction piece generalizing recording text nodes with
  | empty => simpa [Piece.events, Piece.chars, Piece.beginnings] using tracks
  | text written => simpa [Piece.events, Piece.chars, Piece.beginnings] using tracks.write written
  | node origin name body ih =>
      cases origin with
      | none => exact ih tracks differ
      | some origin =>
          rw [Piece.beginnings, Option.map_some, Option.toList_some, ← List.append_assoc] at differ ⊢
          exact ih (tracks.mark origin name differ.of_append) differ
  | append first second ihFirst ihSecond =>
      rw [Piece.beginnings, ← List.append_assoc] at differ ⊢
      rw [Piece.events, first.events_eq, List.foldl_append, Piece.chars, ← List.append_assoc]
      exact ihSecond (ihFirst tracks differ.of_append) differ

theorem tracks_start (describe : String → SourceEntry) (file : Option String) :
    Tracks describe [] [] ⟨{ Builder.empty with file := file }, []⟩ :=
  ⟨Builder.keeps_empty.of_eq rfl rfl, by simp [modulesOf], rfl, by simp [modulesOf, Builder.empty]⟩

theorem Indexes.isEmpty_contents (indexes : recording.Indexes describe modules) :
    recording.builder.contents.isEmpty = true ↔ ∀ module ∈ modules, (describe module).content = none := by
  rw [List.isEmpty_iff]
  constructor
  · intro nothing module member
    obtain ⟨index, found⟩ := List.mem_iff_getElem?.mp member
    simpa [nothing, found] using (indexes.contents index).symm
  · intro nothing
    cases given : recording.builder.contents with
    | nil => rfl
    | cons first rest =>
        obtain ⟨index, content⟩ := first
        have found := indexes.contents index
        rw [given, List.lookup_cons_self] at found
        obtain ⟨module, member, described⟩ := Option.bind_eq_some_iff.mp found.symm
        rw [nothing module (List.mem_of_getElem? member)] at described
        cases described

theorem Indexes.sourcesContent (indexes : recording.Indexes describe modules) :
    recording.builder.build.sourcesContent =
      if ∀ module ∈ modules, (describe module).content = none then []
      else modules.map fun module => (describe module).content := by
  have entries : (recording.builder.sources.zipIdx.map fun entry => recording.builder.contents.lookup entry.2) =
      modules.map fun module => (describe module).content := by
    apply List.ext_getElem?
    intro index
    cases found : modules[index]? with
    | none => simp [indexes.sources, found]
    | some module => simp [indexes.sources, indexes.contents, found]
  show (if recording.builder.contents.isEmpty then [] else
    recording.builder.sources.zipIdx.map fun entry => recording.builder.contents.lookup entry.2) = _
  simp only [entries, indexes.isEmpty_contents]

end Recording

namespace Fragment

def modules (fragment : Fragment) : List String := modulesOf fragment.beginnings

/-- A finished map records the origins of a fragment: at every place where nodes begin, the last of them. It lists the
sources of all modules in the order in which the nodes name them, also those of which no segment is kept. -/
theorem finalize_origins {fragment : Fragment} {describe : String → SourceEntry} (file : Option String)
    (differ : PathsDiffer describe fragment.modules) :
    let map := (fragment.finalize file describe).map
    ∃ segments, map.decode = some segments ∧
      (segments.Pairwise fun first second => first.place.Before second.place) ∧
      (∀ node ∈ fragment.beginnings, ∃ segment ∈ segments, segment.place = node.place) ∧
      (∀ segment, segment ∈ segments ↔
        ∃ node : Beginning, node.IsLastOf fragment.beginnings ∧ segment = node.segment fragment.modules) ∧
      map.sources = (fragment.modules.map fun module => (describe module).path) ∧
      map.sourcesContent =
        if ∀ module ∈ fragment.modules, (describe module).content = none then []
        else fragment.modules.map fun module => (describe module).content := by
  intro map
  have tracks := (Recording.tracks_start describe file).piece fragment.toPiece differ
  have recorded := Beginning.mem_segments fragment.modules fragment.beginnings
  refine ⟨_, tracks.keeps.decode_build, ?_, ?_, recorded, tracks.indexes.sources, tracks.indexes.sourcesContent⟩
  · exact List.pairwise_map.mpr tracks.keeps.sorted
  · intro node member
    obtain ⟨last, isLast, same⟩ := Beginning.exists_isLastOf member
    exact ⟨_, (recorded _).mpr ⟨last, isLast, rfl⟩, same⟩

/-- A module whose only node is replaced, a character of two bytes, a module that is met again, and one content. -/
theorem finalize_origins_replaced :
    let described : String → SourceEntry := fun module =>
      ⟨module ++ ".lua", if module = "b" then some "text" else none⟩
    let fragment : Fragment := ⟨some ⟨"a", ⟨1, 0⟩⟩, none,
      .append (.node (some ⟨"b", ⟨3, 4⟩⟩) (some "x") (.text "\né"))
        (.append (.node (some ⟨"c", ⟨1, 0⟩⟩) none .empty) (.node (some ⟨"b", ⟨5, 1⟩⟩) none (.text "y")))⟩
    PathsDiffer described fragment.modules ∧
      (fragment.finalize none described).map.sources = ["a.lua", "b.lua", "c.lua"] ∧
      (fragment.finalize none described).map.sourcesContent = [none, some "text", none] ∧
      ∃ segments, (fragment.finalize none described).map.decode = some segments ∧
        ⟨⟨0, 0⟩, some (1, ⟨2, 4⟩), some "x"⟩ ∈ segments ∧ ⟨⟨1, 2⟩, some (1, ⟨4, 1⟩), none⟩ ∈ segments := by
  intro described fragment
  have modules : fragment.modules = ["a", "b", "c"] := by decide +kernel
  have differ : PathsDiffer described fragment.modules := by
    rw [modules]
    unfold PathsDiffer
    decide +kernel
  obtain ⟨segments, decoded, -, -, kept, sources, contents⟩ := finalize_origins none differ
  rw [modules] at sources contents
  refine ⟨differ, sources.trans (by decide +kernel), contents.trans (by decide +kernel), segments, decoded, ?_, ?_⟩
  · exact (kept _).mpr ⟨⟨[], ⟨"b", ⟨3, 4⟩⟩, some "x"⟩, ⟨_, _, rfl, by decide +kernel⟩, rfl⟩
  · exact (kept _).mpr ⟨⟨['\n', 'é'], ⟨"b", ⟨5, 1⟩⟩, none⟩, ⟨fragment.beginnings.take 3, [], rfl, by simp⟩, rfl⟩

end Fragment
end LuaMinifier
