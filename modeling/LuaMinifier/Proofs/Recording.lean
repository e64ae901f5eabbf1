import LuaMinifier.Fragment.Finalize
import LuaMinifier.Proofs.Ink
import LuaMinifier.Proofs.Places

/-!
What a map records while a text is written: the last of the marks at each place, with the places in order.
-/

namespace LuaMinifier

open Token

namespace Position

/-- The same place where lines are counted from one. -/
def fromOne (place : Position) : Position := ⟨place.line + 1, place.column⟩

theorem fromOne_step (place : Position) (character : Char) :
    place.fromOne.step character = (place.step character).fromOne := by
  unfold step fromOne
  split <;> rfl

theorem fromOne_after (place : Position) (text : List Char) :
    place.fromOne.after text = (place.after text).fromOne := by
  induction text generalizing place with
  | nil => rfl
  | cons character rest ih => rw [after_cons, after_cons, fromOne_step, ih]

end Position

def Mapping.place (mapping : Mapping) : Position := ⟨mapping.generatedLine, mapping.generatedColumn⟩

def Mapping.ofMark (source : Nat) (place origin : Position) (name : Option String) : Mapping :=
  ⟨place.line, place.column, source, origin.line - 1, origin.column, name⟩

/-- The mappings that a text leads to where it starts at a place. Of several marks at one place the last counts. -/
def Ink.mappings (source : Nat) : Position → List Ink → List Mapping
  | _, [] => []
  | place, .char character :: rest => mappings source (place.step character) rest
  | place, .mark origin name :: rest =>
    let later := mappings source place rest
    if later.head?.any (·.place = place) then later else .ofMark source place origin.position name :: later

namespace Ink

variable {source : Nat} {place : Position} {ink : List Ink}

theorem mappings_mark_cases (source : Nat) (place : Position) (origin : Origin) (name : Option String)
    (ink : List Ink) :
    mappings source place (.mark origin name :: ink) = mappings source place ink ∨
      mappings source place (.mark origin name :: ink) =
        .ofMark source place origin.position name :: mappings source place ink := by
  rw [mappings]
  split
  · exact .inl rfl
  · exact .inr rfl

theorem place_mappings (source : Nat) (place : Position) (ink : List Ink) :
    ∀ mapping ∈ mappings source place ink, place.AtOrBefore mapping.place := by
  induction ink generalizing place with
  | nil => simp [mappings]
  | cons first rest ih =>
      cases first with
      | char character =>
          intro mapping member
          exact .inr ((place.before_step character).trans_atOrBefore (ih _ mapping member))
      | mark origin name =>
          obtain same | same := mappings_mark_cases source place origin name rest <;> rw [same]
          · exact ih place
          · exact List.forall_mem_cons.mpr ⟨.inl rfl, ih place⟩

def Sorted (mappings : List Mapping) : Prop := mappings.Pairwise fun first second => first.place.Before second.place

theorem before_mappings (sorted : Sorted (mappings source place ink))
    (free : (mappings source place ink).head?.any (·.place = place) = false) :
    ∀ mapping ∈ mappings source place ink, place.Before mapping.place := by
  have bound := place_mappings source place ink
  cases found : mappings source place ink with
  | nil => simp
  | cons first rest =>
      rw [found] at sorted free bound
      obtain ⟨ahead, _⟩ := List.pairwise_cons.mp sorted
      have behind : place.Before first.place := by
        obtain same | before := bound first List.mem_cons_self
        · simp [same] at free
        · exact before
      exact List.forall_mem_cons.mpr ⟨behind, fun mapping member => behind.trans (ahead mapping member)⟩

theorem sorted_mappings (source : Nat) (place : Position) (ink : List Ink) : Sorted (mappings source place ink) := by
  induction ink generalizing place with
  | nil => exact .nil
  | cons first rest ih =>
      cases first with
      | char character => exact ih _
      | mark origin name =>
          rw [mappings]
          split
          next => exact ih place
          next free => exact List.pairwise_cons.mpr ⟨before_mappings (ih place) (by simpa using free), ih place⟩

theorem free_step (source : Nat) (place : Position) (character : Char) (ink : List Ink) :
    (mappings source (place.step character) ink).head?.any (·.place = place) = false := by
  cases found : mappings source (place.step character) ink with
  | nil => rfl
  | cons mapping later =>
      have bound := place_mappings source (place.step character) ink mapping (by simp [found])
      simpa using ((place.before_step character).trans_atOrBefore bound).ne.symm

def From (module : String) (ink : List Ink) : Prop :=
  ∀ origin name, .mark origin name ∈ ink → origin.module = module

theorem From.rest {module : String} {first : Ink} (marks : From module (first :: ink)) : From module ink :=
  fun origin name member => marks origin name (List.mem_cons_of_mem first member)

end Ink

namespace Recording

variable {describe : String → SourceEntry} {recording : Recording} {module : String}

def draw (describe : String → SourceEntry) (recording : Recording) : Ink → Recording
  | .char character => { recording with builder := recording.builder.step character }
  | .mark origin name => recording.step describe (.mark origin name)

theorem foldl_draw_ofChars (describe : String → SourceEntry) (text : List Char) (recording : Recording) :
    (Ink.ofChars text).foldl (draw describe) recording =
      { recording with builder := text.foldl SourceMap.Builder.step recording.builder } := by
  induction text generalizing recording with
  | nil => rfl
  | cons character rest ih => exact ih _

theorem foldl_step (describe : String → SourceEntry) (events : List Event) (recording : Recording) :
    events.foldl (step describe) recording = (events.flatMap Event.ink).foldl (draw describe) recording := by
  induction events generalizing recording with
  | nil => rfl
  | cons event rest ih =>
      rw [List.foldl_cons, ih, List.flatMap_cons, List.foldl_append]
      cases event with
      | text written =>
          rw [Event.ink, foldl_draw_ofChars]
          rfl
      | mark origin name => rfl

def place (recording : Recording) : Position := ⟨recording.builder.line, recording.builder.column⟩

def Listed (describe : String → SourceEntry) (module : String) (recording : Recording) : Prop :=
  recording.modules.lookup module = some 0 ∧ recording.builder.sources = [(describe module).path]

/-- The source of a module is the only one, or gets the first index when the module is met. -/
def Lists (describe : String → SourceEntry) (module : String) (recording : Recording) : Prop :=
  recording.Listed describe module ∨ recording.modules = [] ∧ recording.builder.sources = []

theorem indexOf_lists (lists : recording.Lists describe module) :
    ∃ next, recording.indexOf describe module = (next, 0) ∧ next.Listed describe module ∧
      next.place = recording.place ∧ next.builder.mappings = recording.builder.mappings := by
  obtain known | ⟨nothing, unlisted⟩ := lists
  · exact ⟨recording, by rw [indexOf, known.1], known, rfl, rfl⟩
  · obtain ⟨builder, modules⟩ := recording
    obtain rfl : modules = [] := nothing
    have listed : builder.addSource (describe module).path =
        ({ builder with sources := [(describe module).path] }, 0) := by
      simp [SourceMap.Builder.addSource, show builder.sources = [] from unlisted]
    refine ⟨(indexOf describe ⟨builder, []⟩ module).1, Prod.ext rfl ?_, ⟨?_, ?_⟩, ?_, ?_⟩ <;>
      simp only [indexOf, List.lookup_nil, listed]
    · simp
    · cases (describe module).content <;> rfl
    · cases (describe module).content <;> rfl
    · cases (describe module).content <;> rfl

/-- The mappings that a new one at a place does not replace. -/
def replaced (place : Position) : List Mapping → List Mapping
  | [] => []
  | latest :: earlier => if latest.place = place then earlier else latest :: earlier

theorem replaced_of_before {place : Position} {mappings : List Mapping}
    (behind : ∀ latest ∈ mappings.head?, latest.place.Before place) : replaced place mappings = mappings := by
  cases mappings with
  | nil => rfl
  | cons latest earlier => exact if_neg (behind latest rfl).ne

theorem mappings_addMapping (builder : SourceMap.Builder) (source : Nat) (origin : Position) (name : Option String) :
    (builder.addMapping source origin name).mappings =
      .ofMark source ⟨builder.line, builder.column⟩ origin name ::
        replaced ⟨builder.line, builder.column⟩ builder.mappings := by
  cases found : builder.mappings with
  | nil => simp [SourceMap.Builder.addMapping, found, replaced, Mapping.ofMark]
  | cons latest earlier =>
      simp only [SourceMap.Builder.addMapping, found, replaced, Mapping.place, Position.mk.injEq]
      split <;> rfl

theorem draw_mark {origin : Origin} (here : origin.module = module) (lists : recording.Lists describe module)
    (name : Option String) :
    (recording.draw describe (.mark origin name)).Listed describe module ∧
      (recording.draw describe (.mark origin name)).place = recording.place ∧
      (recording.draw describe (.mark origin name)).builder.mappings =
        .ofMark 0 recording.place origin.position name :: replaced recording.place recording.builder.mappings := by
  obtain ⟨next, found, listed, place, mappings⟩ := indexOf_lists lists
  subst here
  have drawn : recording.draw describe (.mark origin name) =
      { next with builder := next.builder.addMapping 0 origin.position name } := by
    simp only [draw, step, found]
  have kept : (next.builder.addMapping 0 origin.position name).sources = next.builder.sources ∧
      (⟨(next.builder.addMapping 0 origin.position name).line,
        (next.builder.addMapping 0 origin.position name).column⟩ : Position) = next.place := by
    unfold SourceMap.Builder.addMapping
    split
    · split <;> exact ⟨rfl, rfl⟩
    · exact ⟨rfl, rfl⟩
  rw [drawn]
  refine ⟨⟨listed.1, kept.1.trans listed.2⟩, kept.2.trans place, ?_⟩
  rw [mappings_addMapping, mappings, ← place]
  rfl

theorem draw_char (describe : String → SourceEntry) (recording : Recording) (character : Char) :
    (recording.draw describe (.char character)).place = recording.place.step character ∧
      (recording.draw describe (.char character)).builder.mappings = recording.builder.mappings ∧
      (recording.draw describe (.char character)).builder.sources = recording.builder.sources := by
  simp only [draw, place, SourceMap.Builder.step, Position.step]
  split <;> exact ⟨rfl, rfl, rfl⟩

theorem listed_foldl_draw {ink : List Ink} (marks : Ink.From module ink) (listed : recording.Listed describe module) :
    (ink.foldl (draw describe) recording).Listed describe module := by
  induction ink generalizing recording with
  | nil => exact listed
  | cons first rest ih =>
      refine ih marks.rest ?_
      cases first with
      | char character => exact ⟨listed.1, (draw_char describe recording character).2.2.trans listed.2⟩
      | mark origin name => exact (draw_mark (marks origin name List.mem_cons_self) (.inl listed) name).1

/-- What is recorded of a text: its mappings behind the earlier ones, of which the first can replace the latest. -/
theorem mappings_foldl_draw {ink : List Ink} (marks : Ink.From module ink) (lists : recording.Lists describe module)
    (ahead : ∀ latest ∈ recording.builder.mappings.head?, latest.place.AtOrBefore recording.place) :
    (ink.foldl (draw describe) recording).builder.mappings =
      (Ink.mappings 0 recording.place ink).reverse ++
        if (Ink.mappings 0 recording.place ink).head?.any (·.place = recording.place) then
          replaced recording.place recording.builder.mappings
        else recording.builder.mappings := by
  induction ink generalizing recording with
  | nil => simp [Ink.mappings]
  | cons first rest ih =>
      rw [List.foldl_cons]
      cases first with
      | char character =>
          obtain ⟨place, mappings, sources⟩ := draw_char describe recording character
          -- Behind a character no mark can replace what was recorded before it.
          have step := recording.place.before_step character
          have behind : ∀ latest ∈ recording.builder.mappings.head?,
              latest.place.Before (recording.place.step character) := by
            intro latest member
            obtain same | before := ahead latest member
            · exact same ▸ step
            · exact before.trans step
          have listed : (recording.draw describe (.char character)).Lists describe module := by
            rwa [Lists, Listed, sources]
          have drawn := ih marks.rest listed
          rw [place, mappings, replaced_of_before behind, ite_self] at drawn
          rw [drawn fun latest member => .inr (behind latest member), Ink.mappings, Ink.free_step]
          rfl
      | mark origin name =>
          obtain ⟨listed, place, mappings⟩ := draw_mark (marks origin name List.mem_cons_self) lists name
          have head : ∀ latest ∈ (recording.draw describe (.mark origin name)).builder.mappings.head?,
              latest.place.AtOrBefore (recording.draw describe (.mark origin name)).place := by
            rw [mappings, place]
            rintro latest ⟨⟩
            exact .inl rfl
          rw [ih marks.rest (.inl listed) head, place, mappings, Ink.mappings]
          -- A later mark at this place replaces the mapping that was just added.
          have here : (Mapping.ofMark 0 recording.place origin.position name).place = recording.place := rfl
          split
          next => simp [replaced, here]
          next => simp [replaced, here]

end Recording

def Fragment.mappings (fragment : Fragment) : List Mapping := Ink.mappings 0 ⟨0, 0⟩ fragment.ink

theorem Fragment.foldl_events (fragment : Fragment) (describe : String → SourceEntry) (recording : Recording) :
    fragment.events.foldl (Recording.step describe) recording =
      fragment.ink.foldl (Recording.draw describe) recording := by
  have events : fragment.events.flatMap Event.ink = fragment.ink ++ [] := fragment.toPiece.ink_events []
  rw [Recording.foldl_step, events, List.append_nil]

section Finalizing

variable {fragment : Fragment} {module : String} (marks : Ink.From module fragment.ink) (file : Option String)
  (describe : String → SourceEntry)

include marks

theorem Fragment.map_finalize :
    (fragment.finalize file describe).map.names = (fragment.mappings.filterMap (·.name)).eraseDups ∧
      (fragment.finalize file describe).map.mappings =
        SourceMap.encode (fragment.finalize file describe).map.names fragment.mappings := by
  let start : Recording := ⟨{ SourceMap.Builder.empty with file := file }, []⟩
  have drawn : (fragment.ink.foldl (Recording.draw describe) start).builder.mappings = _ :=
    Recording.mappings_foldl_draw marks (.inr ⟨rfl, rfl⟩) (by simp [start, SourceMap.Builder.empty])
  have recorded : (fragment.events.foldl (Recording.step describe) start).builder.mappings.reverse =
      fragment.mappings := by
    have nothing : start.builder.mappings = [] := rfl
    rw [fragment.foldl_events, drawn, nothing, Recording.replaced, ite_self, List.append_nil, List.reverse_reverse]
    rfl
  refine ⟨congrArg (fun mappings => (List.filterMap Mapping.name mappings).eraseDups) recorded, ?_⟩
  exact congrArg (SourceMap.encode _) recorded

theorem Fragment.sources_finalize {origin : Origin} {name : Option String} {rest : List Ink}
    (first : fragment.ink = .mark origin name :: rest) :
    (fragment.finalize file describe).map.sources = [(describe module).path] := by
  let start : Recording := ⟨{ SourceMap.Builder.empty with file := file }, []⟩
  have drawn : (fragment.ink.foldl (Recording.draw describe) start).Listed describe module := by
    rw [first] at marks
    rw [first, List.foldl_cons]
    have unlisted : start.Lists describe module := .inr ⟨rfl, rfl⟩
    have listed := (Recording.draw_mark (marks origin name List.mem_cons_self) unlisted name).1
    exact Recording.listed_foldl_draw marks.rest listed
  rw [← fragment.foldl_events] at drawn
  exact drawn.2

end Finalizing

end LuaMinifier
