import LuaMinifier.Proofs.Respelling
import LuaMinifier.Proofs.ShortestNames

/-!
Which variable `_ENV` holds the global names of a text. A free name means a field of the innermost visible variable
with that name, so that new names for variables may change what a free name means. Main statement: at a free name the
printed text has the same `_ENV` as the source exactly if `_ENV` keeps its name, or if no visible variable has or gets
that name.
-/

namespace LuaMinifier

/-- An occurrence of a name with the declaration it is or means, and with all visible declarations, the innermost
first. -/
structure Sighting where
  name : String
  declaration : Option Nat
  visible : List (String × Nat)
deriving DecidableEq

def environmentName : String := "_ENV"

/-- The innermost visible declaration of the variable for global names. -/
def Sighting.environment (sighting : Sighting) : Option (String × Nat) :=
  sighting.visible.find? fun each => each.1 = environmentName

namespace Declarations

/-- The walk that also keeps the visible declarations with every occurrence. -/
def sighting : Scoping String Sighting (String × Nat) Declarations where
  bind name known := (⟨name, some known.next, known.visible⟩, (name, known.next), { known with next := known.next + 1 })
  use name known := ⟨name, find? known.visible name, known.visible⟩
  declare := numbering.declare
  declareSelf := numbering.declareSelf
  enter := numbering.enter
  leave := numbering.leave

end Declarations

def Block.sighted (body : Block String) : Block Sighting :=
  (body.walk Declarations.sighting Declarations.empty).1

/-- What the occurrences of a block see, in the order in which they stand. -/
def Block.sightings {ι : Type} (text : ι → String) (body : Block ι) : List Sighting :=
  (body.view .exact text).sighted.occurrences

section Sightings

open Declarations

variable {ι μ : Type} (text : ι → String) (body : Block ι)

theorem Block.view_sighted : (body.view .exact text).sighted.view .exact Sighting.name = body.view .exact text := by
  have marks : sighting.Marks Sighting.name id := ⟨fun _ _ => rfl, fun _ _ => rfl⟩
  refine ((body.view .exact text).view_walk .exact marks empty).trans ?_
  rw [Block.view_exact]
  rfl

theorem Block.bound_sighted (see : String × Option Nat → μ) :
    (body.view .exact text).bound.view .exact see =
      (body.view .exact text).sighted.view .exact fun each => see (each.name, each.declaration) := by
  have follows : sighting.Follows numbering Sighting.name (fun each => see (each.name, each.declaration)) see
      Eq Eq := by
    constructor
    · rintro name state _ rfl
      exact ⟨rfl, rfl, rfl⟩
    · rintro name state _ rfl
      rfl
    · rintro each _ state _ rfl rfl
      rfl
    · rintro state _ rfl
      rfl
    · rintro state _ rfl
      rfl
    · rintro outer _ inner _ rfl rfl
      rfl
  have followed := ((body.view .exact text).follow follows .exact (rfl : empty = empty)).1
  rw [← Block.sighted, Block.view_sighted] at followed
  exact followed

def respelledDeclaration (spell : String → Bool → String) (each : String × Nat) : String × Nat :=
  (spell each.1 true, each.2)

theorem Declarations.follows_sighting {spell : String → Bool → String} (self : spell "self" true = "self") :
    sighting.Follows sighting (fun each => spell each.name each.declaration.isSome)
      (fun each => (spell each.name each.declaration.isSome, each.visible.map (respelledDeclaration spell)))
      (fun each => (each.name, each.visible)) (fun known again => again = known.respelled spell)
      fun each again => again = respelledDeclaration spell each where
  bind := by
    rintro name known _ rfl
    exact ⟨rfl, rfl, rfl⟩
  use := by
    rintro name known _ rfl
    rfl
  declare := by
    rintro each _ known _ rfl rfl
    rfl
  declareSelf := by
    rintro known _ rfl
    simp [sighting, numbering, respelled, self]
  enter := by
    rintro known _ rfl
    rfl
  leave := by
    rintro outer _ inner _ rfl rfl
    rfl

theorem Block.sightings_respelled {κ : Type} {spell : String → Bool → String} (self : spell "self" true = "self")
    {other : Block κ} {otherText : κ → String}
    (same : other.view .exact otherText =
      (body.view .exact text).sighted.view .exact fun each => spell each.name each.declaration.isSome) :
    (other.sightings otherText).map (fun each => (each.name, each.visible)) =
      (body.sightings text).map fun each =>
        (spell each.name each.declaration.isSome, each.visible.map (respelledDeclaration spell)) := by
  have start : empty = empty.respelled spell := rfl
  have followed := ((body.view .exact text).follow (follows_sighting self) .exact start).1
  have listed := congrArg Block.occurrences followed
  rw [Block.occurrences_view, Block.occurrences_view] at listed
  rw [Block.sightings, same]
  exact listed

end Sightings

namespace Session

def spells (session : Session) (name : String) (isLocal : Bool) : String :=
  if isLocal then session.shortName name else name

theorem knows_of_shortName_ne {session : Session} {name : String} (other : session.shortName name ≠ preservedName) :
    session.Knows name := by
  intro different
  cases given : session.binding? name with
  | some short => rfl
  | none => exact absurd (by simp [shortName, different, given]) other

theorem eq_of_shortName_eq {session : Session} (sound : session.Sound) {name kept : String}
    (other : kept ≠ preservedName) (same : session.shortName name = kept) (keeps : session.shortName kept = kept) :
    name = kept := by
  have known : session.Knows name := knows_of_shortName_ne (by rw [same]; exact other)
  have known' : session.Knows kept := knows_of_shortName_ne (by rw [keeps]; exact other)
  exact shortName_injective sound known known' (same.trans keeps.symm)

end Session

/-- Where declarations are spelled anew, the innermost one with a name stays the innermost one with that name exactly if
it keeps the name, or if no declaration has or gets it. -/
theorem find_respelled_iff {spell : String → Bool → String} {name : String}
    (only : ∀ other, spell other true = name → spell name true = name → other = name) (visible : List (String × Nat)) :
    (visible.map (respelledDeclaration spell)).find? (fun each => each.1 = name) =
        (visible.find? fun each => each.1 = name).map (respelledDeclaration spell) ↔
      spell name true = name ∨ ∀ each ∈ visible, each.1 ≠ name ∧ spell each.1 true ≠ name := by
  constructor
  · intro same
    cases found : visible.find? fun each => each.1 = name with
    | some each =>
        left
        have named : each.1 = name := by simpa using List.find?_some found
        rw [found, Option.map_some] at same
        have gets := List.find?_some same
        have again : spell each.1 true = name := of_decide_eq_true gets
        rwa [named] at again
    | none =>
        right
        intro each member
        rw [found, Option.map_none, List.find?_eq_none] at same
        rw [List.find?_eq_none] at found
        refine ⟨by simpa using found each member, ?_⟩
        exact fun gets => same _ (List.mem_map_of_mem member) (decide_eq_true gets)
  · rintro (keeps | absent)
    · have same : ((fun each : String × Nat => decide (each.1 = name)) ∘ respelledDeclaration spell) =
          fun each => decide (each.1 = name) := by
        funext each
        refine decide_eq_decide.mpr ⟨fun again => only each.1 again keeps, ?_⟩
        intro named
        show spell each.1 true = name
        rw [named, keeps]
      rw [List.find?_map, same]
    · have before : visible.find? (fun each => each.1 = name) = none := by
        rw [List.find?_eq_none]
        intro each member
        simpa using (absent each member).1
      rw [before, Option.map_none, List.find?_eq_none]
      intro each member
      obtain ⟨original, inside, rfl⟩ := List.mem_map.mp member
      exact fun gets => (absent original inside).2 (of_decide_eq_true gets)

namespace Chunk

variable {source : String} {chunk : Chunk}

/-- The occurrences that see no declaration of their own are the global ones, and printing gives every declaration that
is seen its new name. -/
theorem sightings_spell (read : Chunk.parse source = .ok chunk) (session : Session) :
    (chunk.body.sightings Identifier.name).map (fun each => (each.name, each.declaration.isSome)) =
        chunk.body.occurrences.map (fun identifier => (identifier.name, identifier.isLocal)) ∧
      ((chunk.body.spell session).1.sightings Spelling.text).map (fun each => (each.name, each.visible)) =
        (chunk.body.sightings Identifier.name).map fun each =>
          ((chunk.body.spell session).2.spells each.name each.declaration.isSome,
            each.visible.map (respelledDeclaration (chunk.body.spell session).2.spells)) := by
  obtain ⟨lexed, tree, _, _, rfl⟩ := Chunk.parse_eq_ok.mp read
  let body := (tree.resolve.run .empty).1
  have resolved : (tree.resolve.run .empty).1 = body := rfl
  have flags {μ : Type} (see : String → Bool → μ) :
      (body.view .exact Identifier.name).sighted.view .exact (fun each => see each.name each.declaration.isSome) =
        body.view .exact fun identifier => see identifier.name identifier.isLocal := by
    rw [← Block.bound_resolve_exact see .exact resolved]
    exact (Block.bound_sighted Identifier.name body fun bound => see bound.1 bound.2.isSome).symm
  constructor
  · have listed := congrArg Block.occurrences (flags Prod.mk)
    rw [Block.occurrences_view, Block.occurrences_view] at listed
    exact listed
  · have self : (body.spell session).2.spells "self" true = "self" := by
      simp [Session.spells, Session.shortName, preservedName]
    refine Block.sightings_respelled Identifier.name body self ?_
    rw [flags, Session.spell_view]
    rfl

theorem exists_sighting_spell (read : Chunk.parse source = .ok chunk) (session : Session) {k : Nat} {use : Sighting}
    (seen : (chunk.body.sightings Identifier.name)[k]? = some use) :
    ∃ again, ((chunk.body.spell session).1.sightings Spelling.text)[k]? = some again ∧
      again.name = (chunk.body.spell session).2.spells use.name use.declaration.isSome ∧
      again.visible = use.visible.map (respelledDeclaration (chunk.body.spell session).2.spells) := by
  have spelled := congrArg (·[k]?) (sightings_spell read session).2
  simp only [List.getElem?_map] at spelled
  rw [seen, Option.map_some, Option.map_eq_some_iff] at spelled
  obtain ⟨again, seenAgain, same⟩ := spelled
  obtain ⟨named, visible⟩ := Prod.mk.inj same
  exact ⟨again, seenAgain, named, visible⟩

theorem shortName_first_ne {first : Identifier} {rest : List Identifier}
    (listed : chunk.body.occurrences = first :: rest) (isLocal : first.isLocal = true)
    (other : first.name ≠ preservedName) (free : "a" ∉ chunk.globals) :
    (chunk.body.spell (Session.withReserved chunk.globals)).2.shortName first.name ≠ environmentName := by
  let session := Session.withReserved chunk.globals
  have unbound : session.binding? first.name = none := by
    simp [session, Session.withReserved, Session.reserve, Session.empty, Session.binding?]
  have given : (chunk.body.spell session).2.binding? first.name = some session.fresh.2 :=
    Block.binding_spell_first listed isLocal other unbound
  have spent : session.Spent := Session.empty_spent.reserve chunk.globals
  have untaken : session.isTaken "a" = false := by
    rw [Bool.eq_false_iff]
    intro taken
    rcases Session.isTaken_reserve_iff.mp taken with listed | taken
    · exact free listed
    · simp [Session.isTaken, Session.isReserved, Session.empty] at taken
      revert taken
      decide
  have short : (chunk.body.spell session).2.shortName first.name = session.fresh.2 := by
    simp [Session.shortName, other, given]
  intro same
  have bound := spent.fresh_length_le (by decide) untaken
  rw [← short, same] at bound
  revert bound
  decide

/-- At every free name of a text the printed text has the image of the innermost visible `_ENV` as its own, or none as
the text has none, exactly if the variable `_ENV` keeps its name or no visible variable has or gets that name. -/
theorem environments_spell (read : Chunk.parse source = .ok chunk) :
    let respelled := (chunk.body.spell (Session.withReserved chunk.globals)).1
    let session := (chunk.body.spell (Session.withReserved chunk.globals)).2
    ∀ (k : Nat) (identifier : Identifier), chunk.body.occurrences[k]? = some identifier → identifier.isLocal = false →
      ∃ use again, (chunk.body.sightings Identifier.name)[k]? = some use ∧
        (respelled.sightings Spelling.text)[k]? = some again ∧
        use.name = identifier.name ∧ again.name = identifier.name ∧ use.declaration = none ∧
        (again.environment = use.environment.map (respelledDeclaration session.spells) ↔
          session.shortName environmentName = environmentName ∨
            ∀ each ∈ use.visible, each.1 ≠ environmentName ∧ session.shortName each.1 ≠ environmentName) := by
  intro respelled session k identifier found isGlobal
  have grown := Session.spell_block_grows chunk.body (.withReserved chunk.globals)
  have sound := grown.sound (Session.withReserved_sound chunk.globals)
  have listed := congrArg (·[k]?) (sightings_spell read (.withReserved chunk.globals)).1
  simp only [List.getElem?_map] at listed
  rw [found, Option.map_some, Option.map_eq_some_iff] at listed
  obtain ⟨use, seen, same⟩ := listed
  obtain ⟨named, flag⟩ := Prod.mk.inj same
  obtain ⟨again, seenAgain, namedAgain, visible⟩ := exists_sighting_spell read (.withReserved chunk.globals) seen
  rw [isGlobal] at flag
  refine ⟨use, again, seen, seenAgain, named, ?_, by simpa using flag, ?_⟩
  · rw [namedAgain, flag, ← named]
    rfl
  · rw [Sighting.environment, Sighting.environment, visible]
    refine find_respelled_iff (fun other given keeps => ?_) use.visible
    exact Session.eq_of_shortName_eq sound (by decide) given keeps

theorem environments_spell_shadowed :
    ∃ chunk, Chunk.parse "local x=t return y" = .ok chunk ∧
      let respelled := (chunk.body.spell (Session.withReserved chunk.globals)).1
      (chunk.body.sightings Identifier.name)[2]? = some ⟨"y", none, [("x", 0)]⟩ ∧
        ∃ again, (respelled.sightings Spelling.text)[2]? = some again ∧ again.name = "y" ∧
          again.environment = none := by
  have check : (Chunk.parse "local x=t return y").toOption.any (fun chunk => decide (chunk.globals = ["t", "y"] ∧
      chunk.body.occurrences.map (fun each => (each.name, each.isLocal)) = [("x", true), ("t", false), ("y", false)] ∧
      chunk.body.sightings Identifier.name =
        [⟨"x", some 0, []⟩, ⟨"t", none, []⟩, ⟨"y", none, [("x", 0)]⟩])) = true := by
    decide +kernel
  obtain ⟨chunk, read, holds⟩ := Chunk.exists_of_parse check
  obtain ⟨globals, names, sightings⟩ := of_decide_eq_true holds
  obtain ⟨first, rest, listed, isFirst, others⟩ := List.map_eq_cons_iff.mp names
  obtain ⟨second, rest, rfl, isSecond, others⟩ := List.map_eq_cons_iff.mp others
  obtain ⟨third, rest, rfl, isThird, others⟩ := List.map_eq_cons_iff.mp others
  obtain ⟨named, isLocal⟩ := Prod.mk.inj isFirst
  obtain ⟨free, isGlobal⟩ := Prod.mk.inj isThird
  obtain ⟨use, again, seen, seenAgain, -, namedAgain, -, kept⟩ :=
    environments_spell read 2 third (by rw [listed]; rfl) isGlobal
  rw [sightings] at seen
  obtain rfl := Option.some.inj seen
  have other := shortName_first_ne listed isLocal (by rw [named]; decide) (by rw [globals]; decide)
  rw [named] at other
  refine ⟨chunk, read, by rw [sightings]; rfl, again, seenAgain, namedAgain.trans free, kept.mpr (.inr ?_)⟩
  intro each member
  obtain rfl := List.mem_singleton.mp member
  exact ⟨by decide, other⟩

/-- The variable `_ENV` gets a new name like any other, so that a global name in its scope loses its meaning. -/
theorem environment_lost :
    ∃ chunk, Chunk.parse "local _ENV=t x=1" = .ok chunk ∧
      let respelled := (chunk.body.spell (Session.withReserved chunk.globals)).1
      ∃ use again, (chunk.body.sightings Identifier.name)[2]? = some use ∧
        (respelled.sightings Spelling.text)[2]? = some again ∧ use.name = "x" ∧ again.name = "x" ∧
        use.declaration = none ∧ use.environment = some ("_ENV", 0) ∧ again.environment = none := by
  have check : (Chunk.parse "local _ENV=t x=1").toOption.any (fun chunk => decide (chunk.globals = ["t", "x"] ∧
      chunk.body.occurrences.map (fun each => (each.name, each.isLocal)) =
        [("_ENV", true), ("t", false), ("x", false)] ∧
      chunk.body.sightings Identifier.name =
        [⟨"_ENV", some 0, []⟩, ⟨"t", none, []⟩, ⟨"x", none, [("_ENV", 0)]⟩])) = true := by
    decide +kernel
  obtain ⟨chunk, read, holds⟩ := Chunk.exists_of_parse check
  obtain ⟨globals, names, sightings⟩ := of_decide_eq_true holds
  obtain ⟨first, rest, listed, isFirst, -⟩ := List.map_eq_cons_iff.mp names
  obtain ⟨named, isLocal⟩ := Prod.mk.inj isFirst
  have other := shortName_first_ne listed isLocal (by rw [named]; decide) (by rw [globals]; decide)
  rw [named] at other
  have seen : (chunk.body.sightings Identifier.name)[2]? = some ⟨"x", none, [("_ENV", 0)]⟩ := by
    rw [sightings]
    rfl
  obtain ⟨again, seenAgain, namedAgain, visible⟩ := exists_sighting_spell read (.withReserved chunk.globals) seen
  refine ⟨chunk, read, _, again, seen, seenAgain, rfl, namedAgain, rfl, rfl, ?_⟩
  rw [Sighting.environment, visible, List.find?_eq_none]
  intro each member
  obtain rfl := List.mem_singleton.mp member
  exact fun same => other (of_decide_eq_true same)

end Chunk

end LuaMinifier
