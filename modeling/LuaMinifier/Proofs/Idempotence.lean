import LuaMinifier.Proofs.Canonical
import LuaMinifier.Proofs.Regrouping
import LuaMinifier.Proofs.Stability

/-!
Minifying a minified text changes nothing: its tokens are settled, and its local variables have the names that a session
gives out anyway, in the order in which it gives them out.
-/

namespace LuaMinifier

open Token

section Names

variable {session : Session} (sound : session.Sound)

include sound

/-- Short names are other names for the variables that have one. -/
theorem Session.Sound.renames : Renaming session.shortName session.Knows where
  injective := Session.shortName_injective sound
  preserved := by
    intro name known
    unfold Session.shortName
    split
    next preserved => simp [preserved]
    next different =>
      obtain ⟨short, given⟩ := Option.isSome_iff_exists.mp (known different)
      simp [given, different, (sound.free given).2.1]

/-- A text that is read from a spelled block names every occurrence as the session does, and has the same local ones. -/
theorem Block.respelled_reread {tree again : Block Name} {body resolvedAgain : Block Identifier}
    (resolved : (tree.resolve.run .empty).1 = body) (readAgain : (again.resolve.run .empty).1 = resolvedAgain)
    (reserves : session.Reserves body)
    (same : again.view .exact Name.text = (body.spell session).1.reread.view .exact Spelling.text) :
    body.occurrences.map (·.respelled (body.spell session).2.shortName) =
      resolvedAgain.occurrences.map (·.respelled id) := by
  let shown := ((body.spell session).1.view .exact Spelling.text).bound.occurrences
  have names : shown.map (·.1) = body.occurrences.map (Spelling.text ∘ (body.spell session).2.spelling) := by
    rw [Block.occurrences_bound, Session.spell_view, Block.occurrences_view]
  have flags : shown.map (·.2.isSome) = body.occurrences.map (·.isLocal) := by
    have kept := congrArg (List.map (·.1.isSome)) (Block.occurrences_spell sound resolved reserves)
    have found := congrArg Block.occurrences (Block.bound_resolve_exact (fun _ isLocal => isLocal) .exact resolved)
    rw [Block.occurrences_view, Block.occurrences_view] at found
    rw [List.map_map, List.map_map] at kept
    exact kept.trans found
  have walked : (resolvedAgain.view .exact Identifier.name).bound.occurrences = shown := by
    rw [← readAgain, Block.view_resolve, same, Block.occurrences_bound_view, (Block.walk_reread _ _ _).1,
      ← Block.occurrences_bound_view]
  have seen := congrArg Block.occurrences
    (Block.bound_resolve_exact (fun name isLocal => (isLocal, name)) .exact readAgain)
  rw [Block.occurrences_view, Block.occurrences_view, walked] at seen
  calc body.occurrences.map (·.respelled (body.spell session).2.shortName)
      = (body.occurrences.map (·.isLocal)).zip
          (body.occurrences.map (Spelling.text ∘ (body.spell session).2.spelling)) := by
        rw [List.zip_map']
        refine List.map_congr_left fun identifier _ => ?_
        cases isLocal : identifier.isLocal <;> simp [Identifier.respelled, Session.spelling, isLocal]
    _ = shown.map fun bound => (bound.2.isSome, bound.1) := by rw [← names, ← flags, List.zip_map']
    _ = resolvedAgain.occurrences.map fun identifier => (identifier.isLocal, identifier.name) := seen
    _ = resolvedAgain.occurrences.map (·.respelled id) := by simp [Identifier.respelled]

end Names

theorem Block.spelledText_of_respelled {first second : Block Identifier} {names others : List String}
    (reserved : ∀ name, name ∈ names ↔ name ∈ others)
    (same : first.occurrences.map (·.respelled (first.spell (.withReserved names)).2.shortName) =
      second.occurrences.map (·.respelled id)) :
    ∀ identifier ∈ second.occurrences, second.spelledText (.withReserved others) identifier = identifier.name := by
  intro identifier member
  cases isLocal : identifier.isLocal with
  | false => simp [Block.spelledText, Session.spelling, isLocal]
  | true =>
      have sound := (Session.spell_block_grows first _).sound (Session.withReserved_sound names)
      have knows := Session.spell_knows first (.withReserved names)
      have mirrors := (Session.Mirrors.withReserved reserved).after sound.renames knows same
      obtain ⟨origin, inside, alike⟩ := List.mem_map.mp (same ▸ List.mem_map_of_mem member)
      obtain ⟨flag, spelled⟩ := Prod.mk.inj alike
      have originLocal : origin.isLocal = true := flag.trans isLocal
      simp only [originLocal, isLocal, ↓reduceIte, id] at spelled
      have kept := mirrors.shortName_eq sound.renames (knows origin inside originLocal)
      rw [← Session.spell_after, spelled] at kept
      simp [Block.spelledText, Session.spelling, isLocal, ← kept]

namespace Chunk

/-- Minifying twice is minifying once. -/
theorem minified_idempotent {source : String} {chunk : Chunk} (module otherModule : String)
    (read : Chunk.parse source = .ok chunk) (numerals : hasNumerals source = true) :
    ∃ again, Chunk.parse (chunk.minified module).toText = .ok again ∧
      (again.minified otherModule).toText = (chunk.minified module).toText := by
  have legible := formed_of_parse read
  obtain ⟨lexed, tree, found, parsed, rfl⟩ := Chunk.parse_eq_ok.mp read
  let body := (tree.resolve.run .empty).1
  let spelled := (body.spell (.withReserved body.globals)).1
  have sound := Session.withReserved_sound body.globals
  have formed : spelled.Formed Kind.Written Spelling.Written :=
    Block.formed_spell sound
      (Block.formed_resolve (Block.formed_of_ofTokens (written_of_hasNumerals numerals found) parsed))
  obtain ⟨lexedAgain, treeAgain, foundAgain, _, parsedAgain, same⟩ := Block.read_print module formed
  have readAgain := Chunk.parse_eq_ok.mpr ⟨lexedAgain, treeAgain, foundAgain, parsedAgain, rfl⟩
  refine ⟨_, readAgain, ?_⟩
  let again := (treeAgain.resolve.run .empty).1
  have respelled := Block.respelled_reread sound rfl (rfl : _ = again) (Session.withReserved_reserves body) same
  have kept := Block.spelledText_of_respelled (Block.mem_globals_congr respelled) respelled
  have essence : again.view .essential (again.spelledText (.withReserved again.globals)) =
      spelled.reread.view .essential Spelling.text := by
    have essential := congrArg (Block.view .essential id) same
    rw [Block.view_exact, Block.view_exact] at essential
    exact (Block.view_congr .essential again kept).trans ((treeAgain.view_resolve .essential).trans essential)
  have printed : spelled.Formed Kind.Legible Spelling.Written :=
    Block.formed_spelled (Session.history_names [.reserve body.globals]) legible
  have tokens : again.reread.kinds (again.spelledText (.withReserved again.globals)) true =
      spelled.reread.kinds Spelling.text true := calc
    _ = spelled.reread.reread.kinds Spelling.text true :=
        Block.kinds_congr id again spelled.reread true (formed_of_parse readAgain) (spelled.formed_reread printed)
          essence
    _ = spelled.reread.kinds Spelling.text true := Block.kinds_settled Spelling.text spelled true printed
  rw [toText_minified otherModule readAgain]
  exact (congrArg (String.ofList ∘ layout) tokens).trans (Block.toText_print module printed).symm

/-- A sum and a quotient that are regrouped, a variable that is shadowed and a call that is cut down to one value. -/
theorem minified_idempotent_regrouped : ∃ chunk,
    Chunk.parse "local x=1 return function(self,x) return a+(b+x)*(c/(d*x)),(f(self)) end" = .ok chunk ∧
      hasNumerals "local x=1 return function(self,x) return a+(b+x)*(c/(d*x)),(f(self)) end" = true ∧
      ∃ again, Chunk.parse (chunk.minified "main").toText = .ok again ∧
        (again.minified "main").toText = (chunk.minified "main").toText := by
  have read : (Chunk.parse "local x=1 return function(self,x) return a+(b+x)*(c/(d*x)),(f(self)) end").toOption.any
      (fun _ => true) = true := by decide +kernel
  have numerals :
      hasNumerals "local x=1 return function(self,x) return a+(b+x)*(c/(d*x)),(f(self)) end" = true := by
    decide +kernel
  obtain ⟨chunk, parsed, _⟩ := Chunk.exists_of_parse read
  exact ⟨chunk, parsed, numerals, minified_idempotent "main" "main" parsed numerals⟩

end Chunk
end LuaMinifier
