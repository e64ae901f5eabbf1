import LuaMinifier.Chunk
import LuaMinifier.Proofs.Binding

/-!
What the names of a session do to a text: every occurrence that is printed with them means what it meant before.
-/

namespace LuaMinifier

open Lexeme Token

namespace Session

theorem mapM_knows (identifiers : List Identifier) (session : Session) :
    session.Grows (identifiers.mapM Identifier.spell session).2 ∧
      ∀ identifier ∈ identifiers, identifier.isLocal = true →
        (identifiers.mapM Identifier.spell session).2.Knows identifier.name := by
  induction identifiers generalizing session with
  | nil => exact ⟨.refl session, by simp⟩
  | cons first rest ih =>
      obtain ⟨grown, others⟩ := ih (first.spell session).2
      have whole : ((first :: rest).mapM Identifier.spell session).2 =
          (rest.mapM Identifier.spell (first.spell session).2).2 := by
        rw [List.mapM_cons]
        rfl
      rw [whole]
      refine ⟨(spell_grows first session).trans grown, List.forall_mem_cons.mpr ⟨fun isLocal => ?_, others⟩⟩
      have known : (first.spell session).2.Knows first.name := by
        simp only [Identifier.spell, isLocal, ↓reduceIte]
        exact session.rename_knows first.name
      exact known.grow grown

theorem spell_knows (body : Block Identifier) (session : Session) : ∀ identifier ∈ body.occurrences,
    identifier.isLocal = true → (body.spell session).2.Knows identifier.name := by
  have same : (body.spell session).2 = (body.occurrences.mapM Identifier.spell session).2 :=
    congrArg Prod.snd (congrFun (body.occurrences_mapM Identifier.spell) session)
  rw [same]
  exact (mapM_knows body.occurrences session).2

theorem spell_block_grows (body : Block Identifier) (session : Session) : session.Grows (body.spell session).2 :=
  (keeps_spelling.holds_block .exact id body session).1

theorem spell_view {μ : Type} (detail : Detail) (see : Spelling → μ) (body : Block Identifier) (session : Session) :
    (body.spell session).1.view detail see = body.view detail (see ∘ (body.spell session).2.spelling) :=
  (keeps_spelling.holds_block detail see body session).2 _ (.refl _)

instance (session : Session) (name : String) : Decidable (session.Knows name) :=
  inferInstanceAs (Decidable (_ → _))

/-- A text that is longer than all reserved names, and no name. -/
def marker (session : Session) : String :=
  String.ofList (List.replicate ((session.reserved.toList.map String.length).max?.getD 0 + 1) '-')

/-- The spellings of a session for all names, with marks on those that it does not print. -/
def respell (session : Session) (name : String) : Bool → String
  | true => if session.Knows name then session.shortName name else session.marker ++ name
  | false => if name ∈ session.reserved then name else "+" ++ name

theorem marked_ne_shortName {session : Session} (sound : session.Sound) (name other : String) :
    session.marker ++ other ≠ session.shortName name ∧ session.shortName name ≠ "+" ++ other := by
  obtain ⟨named, _⟩ := shortName_written sound name
  constructor
  · intro same
    simp [← same, marker, List.replicate_succ, isName, startsName] at named
  · intro same
    simp [same, isName, startsName] at named

theorem marked_not_reserved {session : Session} {name : String} : session.marker ++ name ∉ session.reserved := by
  intro reserved
  have listed : (session.marker ++ name).length ∈ session.reserved.toList.map String.length :=
    List.mem_map_of_mem (by simpa using reserved)
  have bound := List.le_max?_getD_of_mem (k := 0) listed
  simp [marker] at bound
  omega

theorem faithful_respell {session : Session} (sound : session.Sound) : Faithful session.respell where
  injective := by
    intro first second same
    simp only [respell] at same
    split at same <;> split at same
    next known known' => exact shortName_injective sound known known' same
    next => exact absurd same.symm (marked_ne_shortName sound _ _).1
    next => exact absurd same (marked_ne_shortName sound _ _).1
    next => exact String.toList_inj.mp (by simpa using congrArg String.toList same)
  apart := by
    intro first second same
    simp only [respell] at same
    split at same <;> split at same
    next known reserved =>
      rw [← same] at reserved ⊢
      exact (eq_of_shortName_reserved sound known reserved).symm
    next => exact absurd same (marked_ne_shortName sound _ _).2
    next _ reserved => exact absurd (same ▸ reserved) marked_not_reserved
    next => simpa [marker, List.replicate_succ] using congrArg String.toList same
  self := by simp [respell, Knows, shortName, preservedName]

/-- The global names of a block are reserved. -/
def Reserves (session : Session) (body : Block Identifier) : Prop :=
  ∀ identifier ∈ body.occurrences, identifier.isLocal = false → identifier.name ∈ session.reserved

theorem Reserves.grow {earlier later : Session} {body : Block Identifier} (reserves : earlier.Reserves body)
    (grown : earlier.Grows later) : later.Reserves body := by
  intro identifier member isGlobal
  rw [grown.reserved]
  exact reserves identifier member isGlobal

theorem view_spell_text {session : Session} {body : Block Identifier} (reserves : session.Reserves body)
    (detail : Detail) :
    (body.spell session).1.view detail Spelling.text =
      body.view detail fun identifier => (body.spell session).2.respell identifier.name identifier.isLocal := by
  rw [spell_view]
  refine Block.view_congr detail body fun identifier member => ?_
  have known := spell_knows body session identifier member
  have reserved := reserves.grow (spell_block_grows body session) identifier member
  obtain ⟨name, isLocal, position⟩ := identifier
  cases isLocal with
  | true => simp [spelling, respell, known]
  | false => simp [spelling, respell, reserved]

end Session

theorem Block.binding_spell_first {body : Block Identifier} {first : Identifier} {rest : List Identifier}
    (listed : body.occurrences = first :: rest) (isLocal : first.isLocal = true) (other : first.name ≠ preservedName)
    {session : Session} (unbound : session.binding? first.name = none) :
    (body.spell session).2.binding? first.name = some session.fresh.2 := by
  have same : (body.spell session).2 = (body.occurrences.mapM Identifier.spell session).2 :=
    congrArg Prod.snd (congrFun (body.occurrences_mapM Identifier.spell) session)
  have whole : ((first :: rest).mapM Identifier.spell session).2 =
      (rest.mapM Identifier.spell (first.spell session).2).2 := by
    rw [List.mapM_cons]
    rfl
  have named : (first.spell session).2 = session.bind first.name := by
    obtain ⟨preserved, -⟩ | ⟨-, ⟨short, given, -⟩ | ⟨-, renamed⟩⟩ := session.rename_cases first.name
    · exact absurd preserved other
    · cases unbound.symm.trans given
    · simp only [Identifier.spell, isLocal, if_true, renamed]
  rw [same, listed, whole, named]
  exact (Session.mapM_knows rest _).1.bindings (by simp [Session.binding_bind])

/-- Names as a session spells them: every occurrence means the declaration it meant before, and the free ones keep
their names. -/
theorem Block.bound_spell {μ : Type} (see : Option Nat → Option String → μ) (detail : Detail) {session : Session}
    (sound : session.Sound) {tree : Block Name} {body : Block Identifier}
    (resolved : (tree.resolve.run .empty).1 = body) (reserves : session.Reserves body) :
    ((body.spell session).1.view detail Spelling.text).bound.view detail (fun bound => see bound.2 (freeName bound)) =
      (body.view .exact Identifier.name).bound.view detail fun bound => see bound.2 (freeName bound) := by
  have grown := Session.spell_block_grows body session
  have faithful := Session.faithful_respell (grown.sound sound)
  have shown : (body.spell session).1.view detail Spelling.text =
      (body.view .exact Identifier.name).bound.view detail
        fun bound => (body.spell session).2.respell bound.1 bound.2.isSome := by
    rw [Block.bound_resolve_exact _ detail resolved, Session.view_spell_text reserves]
  rw [shown, Block.bound_respelled see faithful]
  refine Block.view_congr detail _ fun bound member => ?_
  obtain ⟨name, site⟩ := bound
  cases site with
  | some => rfl
  | none =>
      have occurs : (name, false) ∈ ((body.view .exact Identifier.name).bound.view .exact
          fun bound => (bound.1, bound.2.isSome)).occurrences := by
        rw [Block.occurrences_view]
        exact List.mem_map_of_mem (f := fun bound => (bound.1, bound.2.isSome)) member
      rw [Block.bound_resolve_exact Prod.mk .exact resolved, Block.occurrences_view, List.mem_map] at occurs
      obtain ⟨identifier, occurs, same⟩ := occurs
      obtain ⟨rfl, isGlobal⟩ := Prod.mk.inj same
      have reserved := reserves.grow grown identifier occurs isGlobal
      simp [Session.respell, reserved]

theorem Block.mem_globals {body : Block Identifier} {name : String} :
    name ∈ body.globals ↔ ∃ identifier ∈ body.occurrences, identifier.isLocal = false ∧ identifier.name = name := by
  simp [Block.globals, and_assoc]

theorem Session.withReserved_sound (names : List String) : (withReserved names).Sound :=
  (empty_unused.reserve names).sound

theorem Session.withReserved_reserves (body : Block Identifier) : (withReserved body.globals).Reserves body := by
  intro identifier member isGlobal
  exact mem_reserve.mpr (.inl (Block.mem_globals.mpr ⟨identifier, member, isGlobal, rfl⟩))

namespace Chunk

def ofTree (tree : Block Name) (comments : List Comment) : Chunk :=
  let body := (tree.resolve.run .empty).1
  ⟨body, comments, body.globals⟩

theorem parse_eq_ok {source : String} {chunk : Chunk} : Chunk.parse source = .ok chunk ↔
    ∃ lexed tree, tokenize source = .ok lexed ∧ Block.ofTokens lexed = .ok tree ∧
      chunk = .ofTree tree lexed.comments := by
  constructor
  · intro read
    cases found : tokenize source with
    | error => simp [Chunk.parse, found, bind, Except.bind] at read
    | ok lexed =>
        cases parsed : Block.ofTokens lexed with
        | error => simp [Chunk.parse, found, parsed, bind, Except.bind] at read
        | ok tree =>
            simp only [Chunk.parse, found, parsed, bind, Except.bind] at read
            exact ⟨lexed, tree, rfl, parsed, (Except.ok.inj read).symm⟩
  · rintro ⟨lexed, tree, found, parsed, rfl⟩
    simp only [Chunk.parse, found, parsed, bind, Except.bind]
    rfl

theorem exists_of_parse {source : String} {holds : Chunk → Bool}
    (checked : (Chunk.parse source).toOption.any holds = true) :
    ∃ chunk, Chunk.parse source = .ok chunk ∧ holds chunk = true := by
  cases read : Chunk.parse source with
  | error failure =>
      rw [read] at checked
      exact absurd checked (by simp [Except.toOption])
  | ok chunk =>
      rw [read] at checked
      exact ⟨chunk, rfl, by simpa [Except.toOption] using checked⟩

end Chunk

namespace Block

/-- The names of the free occurrences of a block, in the order of their first use. -/
def freeNames {ι : Type} (text : ι → String) (body : Block ι) : List String :=
  ((body.view .exact text).bound.occurrences.filterMap freeName).eraseDups

theorem occurrences_bound (body : Block String) : body.bound.occurrences.map (·.1) = body.occurrences := by
  have marks : Declarations.numbering.Marks Prod.fst id := ⟨fun _ _ => rfl, fun _ _ => rfl⟩
  have seen := body.view_walk .exact marks Declarations.empty
  have listed := congrArg Block.occurrences seen
  rw [Block.occurrences_view, Block.occurrences_view, List.map_id] at listed
  exact listed

theorem globals_eq (body : Block Identifier) :
    body.globals = (body.occurrences.filterMap Identifier.global?).eraseDups := by
  unfold Block.globals
  congr 1
  induction body.occurrences with
  | nil => rfl
  | cons identifier rest ih => cases flag : identifier.isLocal <;> simp [Identifier.global?, flag, ih]

theorem freeNames_resolve {tree : Block Name} {body : Block Identifier}
    (resolved : (tree.resolve.run .empty).1 = body) : body.freeNames Identifier.name = body.globals := by
  have seen := Block.bound_resolve (fun name isLocal => if isLocal then none else some name) .exact resolved
  have listed := congrArg (fun body => body.occurrences.filterMap id) seen
  simp only [Block.occurrences_view, List.filterMap_map] at listed
  rw [globals_eq, freeNames, freeName_eq]
  exact congrArg List.eraseDups listed

theorem occurrences_spell {session : Session} (sound : session.Sound) {tree : Block Name} {body : Block Identifier}
    (resolved : (tree.resolve.run .empty).1 = body) (reserves : session.Reserves body) :
    ((body.spell session).1.view .exact Spelling.text).bound.occurrences.map (fun bound => (bound.2, freeName bound)) =
      (body.view .exact Identifier.name).bound.occurrences.map fun bound => (bound.2, freeName bound) := by
  have bound := Block.bound_spell Prod.mk .exact sound resolved reserves
  have listed := congrArg Block.occurrences bound
  rw [Block.occurrences_view, Block.occurrences_view] at listed
  exact listed

theorem freeNames_spell {session : Session} (sound : session.Sound) {tree : Block Name} {body : Block Identifier}
    (resolved : (tree.resolve.run .empty).1 = body) (reserves : session.Reserves body) :
    (body.spell session).1.freeNames Spelling.text = body.globals := by
  have names := congrArg (List.filterMap Prod.snd) (occurrences_spell sound resolved reserves)
  rw [List.filterMap_map, List.filterMap_map] at names
  exact (congrArg List.eraseDups names).trans (freeNames_resolve resolved)

end Block

theorem getElem?_of_free {first second : List (String × Option Nat)}
    (same : first.map (fun bound => (bound.2, freeName bound)) = second.map fun bound => (bound.2, freeName bound))
    {k : Nat} (free : (second.map (·.2))[k]? = some none) : (first.map (·.1))[k]? = (second.map (·.1))[k]? := by
  have there := congrArg (·[k]?) same
  simp only [List.getElem?_map, Option.map_eq_some_iff] at free there ⊢
  obtain ⟨⟨name, _⟩, found, rfl⟩ := free
  rw [found] at there
  obtain ⟨⟨other, site⟩, found', shown⟩ := Option.map_eq_some_iff.mp there
  obtain ⟨rfl, equal⟩ := Prod.mk.inj shown
  rw [found, found']
  exact equal

/-- The names that printing gives to variables leave what every occurrence means as it is: it means the declaration
with the same number, or it is free as before and keeps its name. The free names are the globals of the chunk, in
the same order. -/
theorem Chunk.declarations_spell {source : String} {chunk : Chunk} (read : Chunk.parse source = .ok chunk) :
    let respelled := (chunk.body.spell (Session.withReserved chunk.globals)).1
    respelled.declarations Spelling.text = chunk.body.declarations Identifier.name ∧
      (∀ k : Nat, (chunk.body.declarations Identifier.name)[k]? = some none →
        (respelled.occurrences.map Spelling.text)[k]? = (chunk.body.occurrences.map Identifier.name)[k]?) ∧
      respelled.freeNames Spelling.text = chunk.globals ∧ chunk.body.freeNames Identifier.name = chunk.globals := by
  obtain ⟨lexed, tree, _, _, rfl⟩ := Chunk.parse_eq_ok.mp read
  intro respelled
  let body := (tree.resolve.run .empty).1
  have sound := Session.withReserved_sound body.globals
  have reserves := Session.withReserved_reserves body
  have resolved : (tree.resolve.run .empty).1 = body := rfl
  have listed := Block.occurrences_spell sound resolved reserves
  refine ⟨?_, ?_, Block.freeNames_spell sound resolved reserves, Block.freeNames_resolve resolved⟩
  · have sites := congrArg (List.map Prod.fst) listed
    rw [List.map_map, List.map_map] at sites
    exact sites
  · intro k free
    have there := getElem?_of_free listed free
    rw [Block.occurrences_bound, Block.occurrences_bound, Block.occurrences_view, Block.occurrences_view] at there
    exact there

/-- A name that is global, local and a parameter, and a method with its own parameter. -/
theorem Chunk.declarations_spell_method : ∃ chunk,
    Chunk.parse "local x=x function t:m(x)self.x=x end" = .ok chunk ∧
      let respelled := (chunk.body.spell (Session.withReserved chunk.globals)).1
      respelled.declarations Spelling.text = [some 0, none, none, some 2, some 1, some 2] ∧
      (∀ k : Nat, (chunk.body.declarations Identifier.name)[k]? = some none →
        (respelled.occurrences.map Spelling.text)[k]? = (chunk.body.occurrences.map Identifier.name)[k]?) ∧
      respelled.freeNames Spelling.text = ["x", "t"] := by
  have found : (Chunk.parse "local x=x function t:m(x)self.x=x end").toOption.map
      (fun chunk => (chunk.body.declarations Identifier.name, chunk.globals)) =
        some ([some 0, none, none, some 2, some 1, some 2], ["x", "t"]) := by
    decide +kernel
  cases read : Chunk.parse "local x=x function t:m(x)self.x=x end" with
  | error => simp [read, Except.toOption] at found
  | ok chunk =>
      rw [read] at found
      obtain ⟨sites, globals⟩ := Prod.mk.inj (Option.some.inj found)
      obtain ⟨same, free, names, _⟩ := Chunk.declarations_spell read
      exact ⟨chunk, rfl, same.trans sites, free, names.trans globals⟩

end LuaMinifier
