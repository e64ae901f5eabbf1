import LuaMinifier.Minify
import LuaMinifier.Proofs.Leaves
import LuaMinifier.Proofs.MapDecoding
import LuaMinifier.Proofs.MarkedTokens
import Mathlib.Data.List.Forall2

/-!
The map of a minified text leads from every variable and every literal back to where it stands in the source. A mark
stands directly before each of them, so that no other mark takes its place, and names are recorded for them alone.
-/

namespace LuaMinifier

open Token

def Position.fromZero (position : Position) : Position := ⟨position.line - 1, position.column⟩

/-- The mapping of a leaf: from where it stands in a text to where it stood in its source, with its text there if that
was different. -/
def Mapping.ofLeaf (old new : Token) : Mapping :=
  .ofMark 0 new.position.fromZero old.position
    (if new.kind = old.kind then none else some (String.ofList old.kind.chars))

def SourceMap.Segment.ofLeaf (old new : Token) : SourceMap.Segment where
  place := new.position.fromZero
  origin := some (0, old.position.fromZero)
  name := if new.kind = old.kind then none else some (String.ofList old.kind.chars)

def Spelling.source (occurrence : Spelling) : Name := ⟨occurrence.name, occurrence.position⟩

theorem Spelling.original_eq (occurrence : Spelling) : occurrence.original? =
    if Kind.name occurrence.text = Kind.name occurrence.name then none
    else some (String.ofList (Kind.name occurrence.name).chars) := by
  by_cases same : occurrence.text = occurrence.name <;> simp [original?, same, Kind.chars]

namespace Ink

variable {source : Nat} {place : Position} {ink : List Ink}

theorem mappings_ofChars (source : Nat) (place : Position) (text : List Char) (ink : List Ink) :
    mappings source place (ofChars text ++ ink) = mappings source (place.after text) ink := by
  induction text generalizing place with
  | nil => rfl
  | cons character rest ih => exact ih _

theorem mappings_marked (source : Nat) (place : Position) (origin : Origin) (name : Option String) {text : List Char}
    (some : text ≠ []) (ink : List Ink) : mappings source place (.mark origin name :: ofChars text ++ ink) =
      .ofMark source place origin.position name :: mappings source (place.after text) ink := by
  cases text with
  | nil => exact absurd rfl some
  | cons character rest =>
      rw [List.cons_append, mappings, ofChars_cons, List.cons_append, mappings, free_step, mappings_ofChars]
      rfl

theorem From.append {module : String} {others : List Ink} (front : From module ink) (back : From module others) :
    From module (ink ++ others) := by
  intro origin name member
  obtain inside | inside := List.mem_append.mp member
  · exact front origin name inside
  · exact back origin name inside

theorem From.ofChars (module : String) (text : List Char) : From module (ofChars text) := by
  intro origin name member
  obtain ⟨character, -, same⟩ := List.mem_map.mp member
  cases same

theorem From.cons {module : String} (position : Position) (name : Option String) (rest : From module ink) :
    From module (.mark ⟨module, position⟩ name :: ink) := by
  intro origin other member
  obtain same | inside := List.mem_cons.mp member
  · cases same; rfl
  · exact rest origin other inside

end Ink

/-- Leaves that only the name of a variable can tell apart. -/
def Respells (old new : Token) : Prop :=
  old.kind = new.kind ∨ ∃ before after, old.kind = .name before ∧ new.kind = .name after

/-- Mappings of a text: one for every leaf, and others that have no name. -/
structure Covers (pairs : List (Token × Token)) (mappings : List Mapping) : Prop where
  leaves : (pairs.map fun pair => Mapping.ofLeaf pair.1 pair.2).Sublist mappings
  named : ∀ mapping ∈ mappings, mapping.name.isSome = true → ∃ pair ∈ pairs, mapping = .ofLeaf pair.1 pair.2

namespace Covers

variable {pairs : List (Token × Token)} {mappings : List Mapping} {mapping : Mapping}

theorem plain (covers : Covers pairs mappings) (unnamed : mapping.name = none) :
    Covers pairs (mapping :: mappings) := by
  refine ⟨covers.leaves.cons mapping, List.forall_mem_cons.mpr ⟨fun named => ?_, covers.named⟩⟩
  rw [unnamed] at named
  cases named

theorem leaf (covers : Covers pairs mappings) {pair : Token × Token} (same : mapping = .ofLeaf pair.1 pair.2) :
    Covers (pair :: pairs) (mapping :: mappings) := by
  subst same
  refine ⟨covers.leaves.cons_cons _, List.forall_mem_cons.mpr ⟨fun _ => ⟨pair, List.mem_cons_self, rfl⟩, ?_⟩⟩
  intro mapping member named
  obtain ⟨found, inside, same⟩ := covers.named mapping member named
  exact ⟨found, List.mem_cons_of_mem _ inside, same⟩

end Covers

namespace Placed

variable {module : String} {position place : Position} {items : List (Item Spelling)} {tokens : List Token}
  {ink : List Ink}

theorem length_eq (placed : Placed module position items tokens ink) : items.length = tokens.length := by
  induction placed with
  | nil => rfl
  | mark _ _ ih => exact ih
  | char _ _ ih => exact ih
  | fixed _ _ ih => exact congrArg (· + 1) ih
  | literal _ _ _ _ ih => exact congrArg (· + 1) ih
  | occurrence _ _ _ ih => exact congrArg (· + 1) ih

theorem marks (placed : Placed module position items tokens ink) : Ink.From module ink := by
  induction placed with
  | nil => intro origin name member; cases member
  | mark origin _ ih => exact .cons origin none ih
  | char character _ ih => exact (Ink.From.ofChars module [character]).append ih
  | fixed kind _ ih => exact (Ink.From.ofChars module _).append ih
  | literal kind origin _ _ ih => exact .cons origin none ((Ink.From.ofChars module _).append ih)
  | occurrence occurrence _ _ ih => exact .cons _ _ ((Ink.From.ofChars module _).append ih)

theorem mappings (placed : Placed module place.fromOne items tokens ink) :
    Covers (leafPairs Spelling.source items tokens) (Ink.mappings 0 place ink) := by
  -- Only the mark of a leaf is sure to be kept: its first character stands directly behind it.
  generalize start : place.fromOne = position at placed
  induction placed generalizing place with
  | nil => exact ⟨.slnil, fun _ member => nomatch member⟩
  | mark origin _ ih =>
      obtain same | same := Ink.mappings_mark_cases 0 place ⟨module, origin⟩ none _ <;> rw [same]
      · exact ih start
      · exact (ih start).plain rfl
  | char character _ ih => exact ih (by rw [← start, Position.fromOne_step])
  | fixed kind _ ih =>
      rw [Ink.mappings_ofChars]
      exact ih (by rw [← start, Position.fromOne_after])
  | literal kind origin written _ ih =>
      obtain ⟨first, rest, chars⟩ := Spaced.chars_ne_nil written
      rw [Ink.mappings_marked 0 place _ none (by simp [chars])]
      subst start
      refine Covers.leaf (ih (by rw [Position.fromOne_after])) ?_
      rw [Mapping.ofLeaf, if_pos rfl]
      rfl
  | occurrence occurrence written _ ih =>
      obtain ⟨first, rest, chars⟩ := Spaced.chars_ne_nil written
      rw [Ink.mappings_marked 0 place _ _ (by simp [chars])]
      subst start
      refine Covers.leaf (ih (by rw [Position.fromOne_after])) ?_
      rw [occurrence.original_eq]
      rfl

theorem respells (placed : Placed module position items tokens ink) :
    ∀ pair ∈ leafPairs Spelling.source items tokens, Respells pair.1 pair.2 := by
  induction placed with
  | nil => exact fun _ member => nomatch member
  | mark _ _ ih => exact ih
  | char _ _ ih => exact ih
  | fixed _ _ ih => exact ih
  | literal kind origin _ _ ih => exact List.forall_mem_cons.mpr ⟨.inl rfl, ih⟩
  | occurrence occurrence _ _ ih => exact List.forall_mem_cons.mpr ⟨.inr ⟨_, _, rfl, rfl⟩, ih⟩

end Placed

theorem Ink.Sorted.filter_place {mappings : List Mapping} (sorted : Ink.Sorted mappings) {mapping : Mapping}
    (member : mapping ∈ mappings) : mappings.filter (·.place = mapping.place) = [mapping] := by
  induction mappings with
  | nil => cases member
  | cons first rest ih =>
      obtain ⟨ahead, others⟩ := List.pairwise_cons.mp sorted
      obtain rfl | inside := List.mem_cons.mp member
      · have different : ∀ other ∈ rest, ¬ decide (other.place = mapping.place) = true := by
          intro other inside
          simpa using (ahead other inside).ne.symm
        rw [List.filter_cons_of_pos (by simp), List.filter_eq_nil_iff.mpr different]
      · have different : first.place ≠ mapping.place := (ahead mapping inside).ne
        rw [List.filter_cons_of_neg (by simpa using different), ih others inside]

def Chunk.leaves (chunk : Chunk) : List Token :=
  chunk.body.leaves fun identifier => ⟨identifier.name, identifier.position⟩

theorem Chunk.leaves_ofTree (tree : Block Name) (comments : List Comment) :
    (Chunk.ofTree tree comments).leaves = tree.leaves id := by
  have same := congrArg (List.filterMap (Item.leaf? id)) tree.items_resolve
  rwa [filterMap_leaf_map] at same

theorem Chunk.leaves_spell (chunk : Chunk) (session : Session) :
    (chunk.body.spell session).1.leaves Spelling.source = chunk.leaves := by
  have same := congrArg (List.filterMap (Item.leaf? id)) (chunk.body.items_spell session)
  rwa [filterMap_leaf_map, filterMap_leaf_map] at same

/-- Segments lead from the leaves of a text to those of its source. -/
structure SourceMap.Traces (segments : List Segment) (old new : List Token) : Prop where
  /-- No two segments stand at one place, and they stand in order. -/
  ordered : segments.Pairwise fun first second => first.place.Before second.place
  /-- Where a leaf stands there is one segment, and it says where the leaf comes from. -/
  leaves : ∀ pair ∈ old.zip new, segments.filter (·.place = pair.2.position.fromZero) = [.ofLeaf pair.1 pair.2]
  /-- Only leaves have names. -/
  named : ∀ segment ∈ segments, segment.name.isSome = true → ∃ pair ∈ old.zip new, segment = .ofLeaf pair.1 pair.2

theorem Covers.traces {pairs : List (Token × Token)} {mappings : List Mapping} (covers : Covers pairs mappings)
    (sorted : Ink.Sorted mappings) :
    SourceMap.Traces (mappings.map .ofMapping) (pairs.map Prod.fst) (pairs.map Prod.snd) := by
  have zipped : (pairs.map Prod.fst).zip (pairs.map Prod.snd) = pairs := by
    rw [← List.unzip_fst, ← List.unzip_snd, List.zip_unzip]
  refine ⟨List.pairwise_map.mpr sorted, ?_, ?_⟩ <;> rw [zipped]
  · intro pair member
    have inside : Mapping.ofLeaf pair.1 pair.2 ∈ mappings := covers.leaves.subset (List.mem_map_of_mem member)
    rw [List.filter_map]
    exact congrArg (List.map SourceMap.Segment.ofMapping) (sorted.filter_place inside)
  · intro segment member named
    obtain ⟨mapping, inside, rfl⟩ := List.mem_map.mp member
    obtain ⟨pair, found, same⟩ := covers.named mapping inside named
    exact ⟨pair, found, congrArg SourceMap.Segment.ofMapping same⟩

theorem Fragment.decode_finalize {fragment : Fragment} {module : String} (marks : Ink.From module fragment.ink)
    (file : Option String) (describe : String → SourceEntry) :
    (fragment.finalize file describe).map.decode = some (fragment.mappings.map .ofMapping) := by
  obtain ⟨names, encoded⟩ := fragment.map_finalize marks file describe
  refine SourceMap.decode_encode encoded ?_ fun mapping member name same => ?_
  · exact (Ink.sorted_mappings 0 ⟨0, 0⟩ fragment.ink).imp Position.Before.line_le
  · rw [names, List.mem_eraseDups]
    exact List.mem_filterMap.mpr ⟨mapping, member, same⟩

theorem Block.leaves_reread {lexed : Lexed} {tree : Block Name} {body : Block Spelling}
    (reads : LuaMinifier.Reads lexed.tokens tree.items)
    (view : tree.view .exact Name.text = body.reread.view .exact Spelling.text) :
    tree.leaves id = (leafPairs Spelling.source body.items lexed.significant).map Prod.snd := by
  have same := congrArg Block.items view
  rw [Block.items_view, Block.items_view, Block.items_reread] at same
  exact reads.leaves_eq Spelling.source (tree.separates_items Name.text) same

theorem minify_eq_ok {name source : String} {options : Options} {file : Option String} {output : Output} :
    minify name source options file = .ok output ↔ ∃ chunk, Chunk.parse source = .ok chunk ∧ output =
      ((chunk.minified name).withPragmas name (pragmas options.pragmaMarker chunk.comments)).finalize file
        fun module => ⟨module, if options.sourcesContent then some source else none⟩ := by
  unfold minify parseModule
  constructor
  · intro done
    cases read : Chunk.parse source with
    | error failure =>
        rw [read] at done
        cases done
    | ok chunk =>
        rw [read] at done
        exact ⟨chunk, rfl, (Except.ok.inj done).symm⟩
  · rintro ⟨chunk, read, rfl⟩
    rw [read]
    rfl

/-- Minifying a text leaves a map that leads from all variables and literals of the output to those of the source. -/
theorem minify_traces {name source : String} {options : Options} {file : Option String} {output : Output}
    (done : minify name source options file = .ok output) (numerals : hasNumerals source = true) :
    ∃ chunk again lexed segments, Chunk.parse source = .ok chunk ∧ Chunk.parse output.code = .ok again ∧
      tokenize output.code = .ok lexed ∧
      (∀ identifier ∈ chunk.body.occurrences, ⟨.name identifier.name, identifier.position⟩ ∈ chunk.leaves) ∧
      (∀ leaf ∈ chunk.leaves, leaf.StandsIn source) ∧ again.leaves.Sublist lexed.tokens ∧
      List.Forall₂ Respells chunk.leaves again.leaves ∧ output.map.decode = some segments ∧
      output.map.sources = [name] ∧ SourceMap.Traces segments chunk.leaves again.leaves := by
  obtain ⟨chunk, read, rfl⟩ := minify_eq_ok.mp done
  obtain ⟨lexed, tree, found, parsed, rfl⟩ := Chunk.parse_eq_ok.mp read
  let chunk := Chunk.ofTree tree lexed.comments
  have written := written_of_hasNumerals numerals found
  have formed : chunk.body.Formed Kind.Written fun identifier => (Kind.name identifier.name).Written :=
    Block.formed_resolve (Block.formed_of_ofTokens written parsed)
  have closed : ∀ comment ∈ pragmas options.pragmaMarker lexed.comments, comment.Closed :=
    fun comment kept => Lexed.closed_of_ofText found comment (pragmas_subset _ _ kept)
  obtain ⟨lexedAgain, treeAgain, foundAgain, parsedAgain, view, writtenAgain, placed⟩ :=
    Block.read_marked name (Block.formed_spell (Session.withReserved_sound chunk.globals) formed) closed
  let spelled := (chunk.body.spell (Session.withReserved chunk.globals)).1
  let pairs := leafPairs Spelling.source spelled.items lexedAgain.significant
  have reads := Block.reads_of_written writtenAgain parsedAgain
  have old : chunk.leaves = pairs.map Prod.fst :=
    (chunk.leaves_spell _).symm.trans (map_fst_leafPairs placed.length_eq).symm
  have covers : Covers pairs (Ink.mappings 0 ⟨0, 0⟩ _) := placed.mappings
  have standing : ∀ leaf ∈ chunk.leaves, leaf.StandsIn source := by
    intro leaf member
    rw [Chunk.leaves_ofTree] at member
    exact standsIn_of_tokenize found leaf ((Block.reads_of_written written parsed).leaves_sublist.subset member)
  have again : (Chunk.ofTree treeAgain lexedAgain.comments).leaves = pairs.map Prod.snd :=
    (Chunk.leaves_ofTree ..).trans (Block.leaves_reread reads view)
  refine ⟨chunk, .ofTree treeAgain lexedAgain.comments, lexedAgain, _, read,
    Chunk.parse_eq_ok.mpr ⟨lexedAgain, treeAgain, foundAgain, parsedAgain, rfl⟩, foundAgain,
    fun identifier member => Block.token_mem_leaves member, standing, ?_, ?_,
    Fragment.decode_finalize placed.marks file _,
    Fragment.sources_finalize placed.marks file _ (ink_withPragmas ..), ?_⟩
  · rw [Chunk.leaves_ofTree]
    exact reads.leaves_sublist
  · rw [again, old]
    simpa [List.forall₂_map_left_iff, List.forall₂_map_right_iff, List.forall₂_same] using placed.respells
  · rw [again, old]
    exact covers.traces (Ink.sorted_mappings ..)

/-- A comment that is kept, a text with a character of two bytes, and a variable that is declared anew. -/
theorem minify_traces_shadowed :
    let source := "--#é\nlocal word = 'é'\nlocal word = word .. x.y"
    hasNumerals source = true ∧ ∃ output, minify "main" source {} none = .ok output ∧
      ∃ chunk again lexed segments, Chunk.parse source = .ok chunk ∧ Chunk.parse output.code = .ok again ∧
        tokenize output.code = .ok lexed ∧ chunk.leaves = [⟨.name "word", ⟨2, 6⟩⟩, ⟨.string "'é'", ⟨2, 13⟩⟩,
          ⟨.name "word", ⟨3, 6⟩⟩, ⟨.name "word", ⟨3, 13⟩⟩, ⟨.name "x", ⟨3, 21⟩⟩] ∧
        again.leaves.Sublist lexed.tokens ∧ List.Forall₂ Respells chunk.leaves again.leaves ∧
        output.map.decode = some segments ∧ output.map.sources = ["main"] ∧
        SourceMap.Traces segments chunk.leaves again.leaves := by
  intro source
  have numerals : hasNumerals source = true := by decide +kernel
  have check : (Chunk.parse source).toOption.any (fun chunk => decide (chunk.leaves = [⟨.name "word", ⟨2, 6⟩⟩,
      ⟨.string "'é'", ⟨2, 13⟩⟩, ⟨.name "word", ⟨3, 6⟩⟩, ⟨.name "word", ⟨3, 13⟩⟩, ⟨.name "x", ⟨3, 21⟩⟩])) = true := by
    decide +kernel
  obtain ⟨found, parsed, leaves⟩ := Chunk.exists_of_parse check
  have done : minify "main" source {} none = .ok _ := minify_eq_ok.mpr ⟨found, parsed, rfl⟩
  obtain ⟨chunk, again, lexed, segments, read, readAgain, cut, -, -, placed, respelled, decoded, sources, traces⟩ :=
    minify_traces done numerals
  obtain rfl := Except.ok.inj (parsed.symm.trans read)
  exact ⟨numerals, _, done, found, again, lexed, segments, read, readAgain, cut, of_decide_eq_true leaves, placed,
    respelled, decoded, sources, traces⟩

end LuaMinifier
