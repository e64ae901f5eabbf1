import LuaMinifier.Proofs.MapDecoding
import LuaMinifier.Proofs.Places
import Mathlib.Algebra.Ring.Int.Defs
import Mathlib.Algebra.Ring.Nat
import Mathlib.Data.List.Infix
import Mathlib.Data.List.Perm.Subperm

/-!
Maps that are recorded step by step. Whatever is done with a builder, the finished map decodes to the mappings that were
recorded, of several at one place the last. The encoder computes with words of 64 bits, and no step of it leaves their
range as long as the text has fewer than 2 ^ 62 bytes.
-/

namespace LuaMinifier

namespace SourceMap

/-- What can be done with a builder while a text is written. -/
inductive Operation
  | setFile (file : String)
  | addSource (path : String)
  | setContent (index : Nat) (content : String)
  | addMapping (source line column : UInt32) (name : Option String)
  | advance (text : String)
deriving DecidableEq, Repr

namespace Operation

def text : Operation → List Char
  | .advance text => text.toList
  | _ => []

/-- The mapping that an operation records behind a text. Sources count lines from one, and line zero is the first
too. -/
def mapping? (before : List Char) : Operation → Option Mapping
  | .addMapping source line column name =>
    some ⟨lineFeeds (utf8 before), bytesSinceLineFeed (utf8 before), source.toNat, max line.toNat 1 - 1, column.toNat,
      name⟩
  | _ => none

end Operation

def writtenBy (operations : List Operation) : List Char := operations.flatMap Operation.text

/-- All mappings that operations record behind a text, in order. -/
def recordedBehind (before : List Char) : List Operation → List Mapping
  | [] => []
  | operation :: rest => (operation.mapping? before).toList ++ recordedBehind (before ++ operation.text) rest

def recordedBy (operations : List Operation) : List Mapping := recordedBehind [] operations

/-- The mappings behind which no other one is recorded at the same place. -/
def lastAtPlaces : List Mapping → List Mapping
  | [] => []
  | mapping :: later =>
    if later.any (·.place = mapping.place) then lastAtPlaces later else mapping :: lastAtPlaces later

namespace Builder

def perform (builder : Builder) : Operation → Builder
  | .setFile file => builder.setFile file
  | .addSource path => (builder.addSource path).1
  | .setContent index content => builder.setContent index content
  | .addMapping source line column name => builder.addMapping source.toNat ⟨line.toNat, column.toNat⟩ name
  | .advance text => builder.advance text

def ofOperations (operations : List Operation) : Builder := operations.foldl perform .empty

def place (builder : Builder) : Position := ⟨builder.line, builder.column⟩

end Builder

section Recorded

theorem mem_lastAtPlaces_iff {mapping : Mapping} {mappings : List Mapping} :
    mapping ∈ lastAtPlaces mappings ↔ ∃ earlier later, mappings = earlier ++ mapping :: later ∧
      ∀ other ∈ later, other.place ≠ mapping.place := by
  induction mappings with
  | nil => simp [lastAtPlaces]
  | cons first rest ih =>
      rw [lastAtPlaces]
      constructor
      · intro kept
        by_cases again : rest.any (·.place = first.place) = true
        · rw [if_pos again] at kept
          obtain ⟨earlier, later, rfl, free⟩ := ih.mp kept
          exact ⟨first :: earlier, later, rfl, free⟩
        · rw [if_neg again, List.mem_cons] at kept
          obtain rfl | inside := kept
          · exact ⟨[], rest, rfl, by simpa using again⟩
          · obtain ⟨earlier, later, rfl, free⟩ := ih.mp inside
            exact ⟨first :: earlier, later, rfl, free⟩
      · rintro ⟨earlier, later, split, free⟩
        cases earlier with
        | nil =>
            obtain ⟨rfl, rfl⟩ := List.cons.inj split
            rw [if_neg (by simpa using free)]
            exact List.mem_cons_self
        | cons _ earlier =>
            obtain ⟨rfl, rfl⟩ := List.cons.inj split
            have kept : mapping ∈ lastAtPlaces (earlier ++ mapping :: later) := ih.mpr ⟨earlier, later, rfl, free⟩
            split
            · exact kept
            · exact List.mem_cons_of_mem _ kept

theorem mem_lastAtPlaces {mapping : Mapping} {mappings : List Mapping} (kept : mapping ∈ lastAtPlaces mappings) :
    mapping ∈ mappings := by
  obtain ⟨earlier, later, rfl, -⟩ := mem_lastAtPlaces_iff.mp kept
  simp

theorem lastAtPlaces_concat (mappings : List Mapping) (latest : Mapping) :
    lastAtPlaces (mappings ++ [latest]) = (lastAtPlaces mappings).filter (·.place ≠ latest.place) ++ [latest] := by
  induction mappings with
  | nil => rfl
  | cons first later ih =>
      rw [List.cons_append, lastAtPlaces, lastAtPlaces, ih]
      by_cases same : latest.place = first.place
      · by_cases again : later.any (·.place = first.place) = true
        · simp [again]
        · simp [again, same]
      · by_cases again : later.any (·.place = first.place) = true
        · simp [again]
        · simp [again, same, Ne.symm same]

theorem recordedBehind_concat (before : List Char) (operations : List Operation) (last : Operation) :
    recordedBehind before (operations ++ [last]) =
      recordedBehind before operations ++ (last.mapping? (before ++ writtenBy operations)).toList := by
  induction operations generalizing before with
  | nil => simp [recordedBehind, writtenBy]
  | cons first rest ih => simp [recordedBehind, ih, writtenBy]

theorem writtenBy_concat (operations : List Operation) (last : Operation) :
    writtenBy (operations ++ [last]) = writtenBy operations ++ last.text := by
  simp [writtenBy]

theorem exists_front_of_mem {mapping : Mapping} {before : List Char} {operations : List Operation}
    (member : mapping ∈ recordedBehind before operations) :
    ∃ front, front <+: before ++ writtenBy operations ∧ mapping.place = (⟨0, 0⟩ : Position).after front := by
  induction operations generalizing before with
  | nil => cases member
  | cons first rest ih =>
      obtain here | later := List.mem_append.mp member
      · refine ⟨before, List.prefix_append .., ?_⟩
        cases first with
        | addMapping source line column name =>
            obtain rfl := List.mem_singleton.mp here
            rw [Position.after_lineStart, Nat.zero_add]
            rfl
        | _ => cases here
      · obtain ⟨front, inside, place⟩ := ih later
        refine ⟨front, ?_, place⟩
        simpa [writtenBy] using inside

end Recorded

namespace Builder

@[simp] theorem place_addMapping (builder : Builder) (source : Nat) (origin : Position) (name : Option String) :
    (builder.addMapping source origin name).place = builder.place := by
  unfold addMapping
  split
  · split <;> rfl
  · rfl

@[simp] theorem sources_addMapping (builder : Builder) (source : Nat) (origin : Position) (name : Option String) :
    (builder.addMapping source origin name).sources = builder.sources := by
  unfold addMapping
  split
  · split <;> rfl
  · rfl

@[simp] theorem contents_addMapping (builder : Builder) (source : Nat) (origin : Position) (name : Option String) :
    (builder.addMapping source origin name).contents = builder.contents := by
  unfold addMapping
  split
  · split <;> rfl
  · rfl

theorem advance_eq (builder : Builder) (text : String) :
    builder.advance text = { builder with
      line := (builder.place.after text.toList).line, column := (builder.place.after text.toList).column } := by
  unfold advance
  induction text.toList generalizing builder with
  | nil => rfl
  | cons character rest ih =>
      rw [List.foldl_cons, ih, Position.after_cons]
      simp only [step, Position.step, place]
      split <;> rfl

/-- What is known of a builder behind a text: where it stands, and which mappings it keeps. -/
structure Keeps (builder : Builder) (text : List Char) (recorded : List Mapping) : Prop where
  place : builder.place = (⟨0, 0⟩ : Position).after text
  mappings : builder.mappings.reverse = lastAtPlaces recorded
  sorted : Ink.Sorted (lastAtPlaces recorded)
  behind : ∀ mapping ∈ lastAtPlaces recorded, mapping.place.AtOrBefore builder.place

theorem keeps_empty : empty.Keeps [] [] := ⟨rfl, rfl, .nil, nofun⟩

variable {builder : Builder} {text : List Char} {recorded : List Mapping}

/-- Where the mappings are sorted, a new one can only replace the latest. -/
theorem Keeps.replaced (keeps : builder.Keeps text recorded) :
    (Recording.replaced builder.place builder.mappings).reverse =
      (lastAtPlaces recorded).filter (·.place ≠ builder.place) := by
  have sorted := keeps.sorted
  have behind := keeps.behind
  rw [← keeps.mappings] at sorted behind ⊢
  rw [Ink.Sorted, List.pairwise_reverse] at sorted
  cases found : builder.mappings with
  | nil => rfl
  | cons latest earlier =>
      rw [found] at sorted behind
      obtain ⟨ahead, -⟩ := List.pairwise_cons.mp sorted
      have before : ∀ mapping ∈ earlier, mapping.place.Before builder.place := fun mapping member =>
        (ahead mapping member).trans_atOrBefore (behind latest (by simp))
      have others : earlier.reverse.filter (·.place ≠ builder.place) = earlier.reverse :=
        List.filter_eq_self.mpr fun mapping member => by simpa using (before mapping (by simpa using member)).ne
      rw [Recording.replaced, List.reverse_cons, List.filter_append, others]
      by_cases same : latest.place = builder.place <;> simp [same]

theorem Keeps.mark (keeps : builder.Keeps text recorded) (source : Nat) (origin : Position) (name : Option String) :
    (builder.addMapping source origin name).Keeps text
      (recorded ++ [.ofMark source builder.place origin name]) := by
  let latest := Mapping.ofMark source builder.place origin name
  have kept : lastAtPlaces (recorded ++ [latest]) =
      (lastAtPlaces recorded).filter (·.place ≠ builder.place) ++ [latest] := lastAtPlaces_concat recorded latest
  refine ⟨?_, ?_, ?_, ?_⟩
  · exact (place_addMapping ..).trans keeps.place
  · rw [Recording.mappings_addMapping, List.reverse_cons]
    exact (congrArg (· ++ [latest]) keeps.replaced).trans kept.symm
  · show Ink.Sorted (lastAtPlaces (recorded ++ [latest]))
    rw [kept]
    refine List.pairwise_append.mpr
      ⟨keeps.sorted.filter _, List.pairwise_singleton .., fun mapping member other last => ?_⟩
    obtain rfl := List.mem_singleton.mp last
    obtain ⟨inside, different⟩ := List.mem_filter.mp member
    obtain same | before := keeps.behind mapping inside
    · simp [same] at different
    · exact before
  · show ∀ mapping ∈ lastAtPlaces (recorded ++ [latest]), mapping.place.AtOrBefore (builder.addMapping ..).place
    rw [kept, place_addMapping]
    intro mapping member
    obtain old | last := List.mem_append.mp member
    · exact keeps.behind mapping (List.mem_filter.mp old).1
    · obtain rfl := List.mem_singleton.mp last
      exact .inl rfl

theorem Keeps.place_eq (keeps : builder.Keeps text recorded) :
    builder.place = ⟨lineFeeds (utf8 text), bytesSinceLineFeed (utf8 text)⟩ := by
  rw [keeps.place, Position.after_lineStart, Nat.zero_add]

theorem Keeps.addMapping (keeps : builder.Keeps text recorded) (source line column : UInt32) (name : Option String) :
    (builder.perform (.addMapping source line column name)).Keeps text
      (recorded ++ (Operation.mapping? text (.addMapping source line column name)).toList) := by
  have new : Operation.mapping? text (.addMapping source line column name) =
      some (.ofMark source.toNat builder.place ⟨line.toNat, column.toNat⟩ name) := by
    have first : max line.toNat 1 - 1 = line.toNat - 1 := by omega
    simp [Operation.mapping?, Mapping.ofMark, keeps.place_eq, first]
  rw [new]
  exact keeps.mark source.toNat ⟨line.toNat, column.toNat⟩ name

theorem Keeps.decode_build (keeps : builder.Keeps text recorded) :
    builder.build.decode = some ((lastAtPlaces recorded).map .ofMapping) := by
  have encoded : builder.build.mappings = encode builder.build.names (lastAtPlaces recorded) :=
    congrArg (encode builder.names) keeps.mappings
  refine decode_encode encoded (keeps.sorted.imp Position.Before.line_le) fun mapping member name same => ?_
  show name ∈ builder.names
  rw [names, keeps.mappings, List.mem_eraseDups]
  exact List.mem_filterMap.mpr ⟨mapping, member, same⟩

theorem Keeps.advance (keeps : builder.Keeps text recorded) (more : String) :
    (builder.advance more).Keeps (text ++ more.toList) recorded := by
  have place : (builder.advance more).place = builder.place.after more.toList := by rw [advance_eq]; rfl
  have mappings : (builder.advance more).mappings = builder.mappings := by rw [advance_eq]
  refine ⟨?_, ?_, keeps.sorted, fun mapping member => ?_⟩
  · rw [place, keeps.place, Position.after_append]
  · rw [mappings, keeps.mappings]
  · rw [place]
    exact (keeps.behind mapping member).after more.toList

theorem Keeps.of_eq {other : Builder} (keeps : builder.Keeps text recorded) (place : other.place = builder.place)
    (mappings : other.mappings = builder.mappings) : other.Keeps text recorded :=
  ⟨place ▸ keeps.place, mappings ▸ keeps.mappings, keeps.sorted, place ▸ keeps.behind⟩

theorem Keeps.perform (keeps : builder.Keeps text recorded) (operation : Operation) :
    (builder.perform operation).Keeps (text ++ operation.text) (recorded ++ (operation.mapping? text).toList) := by
  cases operation with
  | addMapping source line column name => simpa [Operation.text] using keeps.addMapping source line column name
  | advance more =>
      simp only [Operation.mapping?, Option.toList_none, List.append_nil]
      exact keeps.advance more
  | setFile | setContent =>
      simp only [Operation.mapping?, Operation.text, Option.toList_none, List.append_nil]
      exact keeps.of_eq rfl rfl
  | addSource path =>
      simp only [Operation.mapping?, Operation.text, Option.toList_none, List.append_nil]
      refine keeps.of_eq ?_ ?_ <;> rw [Builder.perform, Builder.addSource] <;> split <;> rfl

/-- Whatever is done with a builder, it keeps the last of the mappings recorded at each place. -/
theorem keeps_ofOperations (operations : List Operation) :
    (ofOperations operations).Keeps (writtenBy operations) (recordedBy operations) := by
  induction operations using List.reverseRecOn with
  | nil => exact keeps_empty
  | append_singleton operations last ih =>
      rw [ofOperations, List.foldl_append, writtenBy_concat, recordedBy, recordedBehind_concat, List.nil_append]
      exact ih.perform last

theorem sources_addSource (builder : Builder) (path : String) :
    (builder.addSource path).1.sources =
      if path ∈ builder.sources then builder.sources else builder.sources ++ [path] := by
  rw [addSource, List.contains_eq_mem]
  by_cases known : path ∈ builder.sources <;> simp [known]

theorem sources_perform {operation : Operation} (other : ∀ path, operation ≠ .addSource path) :
    (builder.perform operation).sources = builder.sources := by
  cases operation with
  | addSource path => exact absurd rfl (other path)
  | addMapping => exact sources_addMapping ..
  | advance text => rw [Builder.perform, advance_eq]
  | setFile | setContent => rfl

theorem sources_ofOperations (operations : List Operation) :
    (ofOperations operations).sources.Nodup ∧
      ∀ path, path ∈ (ofOperations operations).sources ↔ .addSource path ∈ operations := by
  induction operations using List.reverseRecOn with
  | nil => exact ⟨.nil, by simp [ofOperations, empty]⟩
  | append_singleton operations last ih =>
      obtain ⟨nodup, listed⟩ := ih
      have step : ofOperations (operations ++ [last]) = (ofOperations operations).perform last := by
        rw [ofOperations, List.foldl_append]
        rfl
      rw [step]
      by_cases added : ∃ path, last = .addSource path
      · obtain ⟨path, rfl⟩ := added
        rw [Builder.perform, sources_addSource]
        split
        next known =>
          refine ⟨nodup, fun other => ?_⟩
          have again : .addSource path ∈ operations := (listed path).mp known
          rw [listed, List.mem_append, List.mem_singleton, Operation.addSource.injEq]
          exact ⟨.inl, fun found => found.elim id fun same => same ▸ again⟩
        next missing =>
          have apart : ∀ old ∈ (ofOperations operations).sources, ∀ new ∈ [path], old ≠ new := by
            rintro old inside new member rfl
            exact missing (List.mem_singleton.mp member ▸ inside)
          refine ⟨List.nodup_append.mpr ⟨nodup, List.pairwise_singleton .., apart⟩, fun other => ?_⟩
          rw [List.mem_append, List.mem_append, listed, List.mem_singleton, List.mem_singleton,
            Operation.addSource.injEq]
      · rw [not_exists] at added
        rw [sources_perform added]
        refine ⟨nodup, fun path => ?_⟩
        rw [listed, List.mem_append, List.mem_singleton]
        exact ⟨.inl, fun found => found.elim id fun same => absurd same.symm (added path)⟩

end Builder

section Names

theorem nodup_eraseDups (words : List String) : words.eraseDups.Nodup := by
  induction length : words.length using Nat.strongRecOn generalizing words with
  | ind bound ih =>
      cases words with
      | nil => exact .nil
      | cons first rest =>
          rw [List.eraseDups_cons, List.nodup_cons, List.mem_eraseDups]
          have shorter : (rest.filter fun word => !word == first).length < bound :=
            length ▸ Nat.lt_succ_of_le (List.length_filter_le ..)
          exact ⟨by simp, ih _ shorter _ rfl⟩

theorem idxOf_filter_lt {keeps : String → Bool} {first second : String} (keepsFirst : keeps first = true)
    (keepsSecond : keeps second = true) (words : List String) :
    (words.filter keeps).idxOf first < (words.filter keeps).idxOf second ↔
      words.idxOf first < words.idxOf second := by
  induction words with
  | nil => rfl
  | cons word rest ih =>
      by_cases kept : keeps word = true
      · rw [List.filter_cons_of_pos kept]
        grind
      · rw [List.filter_cons_of_neg kept]
        have notFirst : word ≠ first := fun same => kept (same ▸ keepsFirst)
        have notSecond : word ≠ second := fun same => kept (same ▸ keepsSecond)
        rw [List.idxOf_cons_ne _ notFirst, List.idxOf_cons_ne _ notSecond, ih]
        omega

theorem pairwise_idxOf_eraseDups (words : List String) :
    words.eraseDups.Pairwise fun first second => words.idxOf first < words.idxOf second := by
  induction length : words.length using Nat.strongRecOn generalizing words with
  | ind bound ih =>
      cases words with
      | nil => exact .nil
      | cons first rest =>
          have shorter : (rest.filter fun word => !word == first).length < bound :=
            length ▸ Nat.lt_succ_of_le (List.length_filter_le ..)
          have different : ∀ word ∈ (rest.filter fun word => !word == first).eraseDups, first ≠ word := by
            intro word member same
            simp [List.mem_eraseDups, same] at member
          rw [List.eraseDups_cons, List.pairwise_cons]
          refine ⟨fun word member => ?_, (ih _ shorter _ rfl).imp_of_mem fun {one two} oneIn twoIn ordered => ?_⟩
          · rw [List.idxOf_cons_self, List.idxOf_cons_ne _ (different word member)]
            exact Nat.succ_pos _
          · have oneKept : (!one == first) = true := by simpa using (different one oneIn).symm
            have twoKept : (!two == first) = true := by simpa using (different two twoIn).symm
            rw [List.idxOf_cons_ne _ (different one oneIn), List.idxOf_cons_ne _ (different two twoIn)]
            exact Nat.succ_lt_succ ((idxOf_filter_lt oneKept twoKept rest).mp ordered)

end Names

/-- A number, if a signed word of 64 bits holds it. -/
def word (value : Int) : Option Int := if -2 ^ 63 ≤ value ∧ value < 2 ^ 63 then some value else none

namespace Words

def difference (new old : Nat) : Option Int := do
  let new ← word new
  let old ← word old
  word (new - old)

def ofInt (value : Int) : Option Int :=
  if value < 0 then do
    let opposite ← word (-value)
    let doubled ← word (opposite * 2)
    word (doubled + 1)
  else word (value * 2)

def symbols (new old : Nat) : Option (List Char) := do
  let difference ← difference new old
  let number ← ofInt difference
  return (Vlq.digits number.toNat).map Base64.symbol

def segment (cursor : Cursor) (mapping : Mapping) (name : Option Nat) : Option (List Char) := do
  let column ← symbols mapping.generatedColumn cursor.generatedColumn
  let source ← symbols mapping.source cursor.source
  let line ← symbols mapping.line cursor.line
  let sourceColumn ← symbols mapping.column cursor.column
  let name ← match name with
    | some index => symbols index cursor.name
    | none => some []
  return column ++ source ++ line ++ sourceColumn ++ name

/-- All segments, in order, with every step checked. -/
def encodeFrom (names : List String) (cursor : Cursor) (isFirst : Bool) : List Mapping → Option (List Char)
  | [] => some []
  | mapping :: rest => do
    let name := mapping.name.map (names.idxOf ·)
    let written ← segment (cursor.onLine mapping.generatedLine) mapping name
    let further ← encodeFrom names (cursor.behind mapping name) false rest
    return separation cursor isFirst mapping.generatedLine ++ written ++ further

def encode (names : List String) (mappings : List Mapping) : Option String :=
  (encodeFrom names .start true mappings).map String.ofList

theorem word_eq {value : Int} (lower : -2 ^ 63 ≤ value) (upper : value < 2 ^ 63) : word value = some value :=
  if_pos ⟨lower, upper⟩

theorem difference_eq {new old : Nat} (newSmall : new < 2 ^ 62) (oldSmall : old < 2 ^ 62) :
    difference new old = some ((new : Int) - old) := by
  have newWord : word new = some (new : Int) := word_eq (by omega) (by omega)
  have oldWord : word old = some (old : Int) := word_eq (by omega) (by omega)
  have result : word ((new : Int) - old) = some ((new : Int) - old) := word_eq (by omega) (by omega)
  simp only [difference, newWord, oldWord, result, Option.bind_eq_bind, Option.bind_some]

theorem ofInt_eq {value : Int} (lower : -2 ^ 62 < value) (upper : value < 2 ^ 62) :
    ofInt value = some (Vlq.ofInt value : Int) := by
  have moved : (Vlq.ofInt value : Int) = if value < 0 then -value * 2 + 1 else value * 2 := by
    cases value <;> simp only [Vlq.ofInt, Int.ofNat_eq_natCast] <;> split <;> omega
  rw [moved]
  by_cases negative : value < 0
  · have opposite : word (-value) = some (-value) := word_eq (by omega) (by omega)
    have doubled : word (-value * 2) = some (-value * 2) := word_eq (by omega) (by omega)
    have result : word (-value * 2 + 1) = some (-value * 2 + 1) := word_eq (by omega) (by omega)
    simp only [ofInt, negative, if_true, opposite, doubled, result, Option.bind_eq_bind, Option.bind_some]
  · simp only [ofInt, negative, if_false]
    exact word_eq (by omega) (by omega)

theorem symbols_eq {new old : Nat} (newSmall : new < 2 ^ 62) (oldSmall : old < 2 ^ 62) :
    symbols new old = some (SourceMap.difference new old) := by
  rw [symbols, difference_eq newSmall oldSmall, Option.bind_eq_bind, Option.bind_some,
    ofInt_eq (by omega) (by omega)]
  simp [SourceMap.difference, Vlq.encode]

/-- Whether a cursor is in the range in which no step of the encoder overflows. -/
structure Fits (cursor : Cursor) : Prop where
  generatedColumn : cursor.generatedColumn < 2 ^ 62
  source : cursor.source < 2 ^ 62
  line : cursor.line < 2 ^ 62
  column : cursor.column < 2 ^ 62
  name : cursor.name < 2 ^ 62

theorem Fits.onLine {cursor : Cursor} (fits : Fits cursor) (line : Nat) : Fits (cursor.onLine line) := by
  unfold Cursor.onLine
  split
  · exact ⟨Nat.two_pow_pos 62, fits.source, fits.line, fits.column, fits.name⟩
  · exact fits

theorem segment_eq {cursor : Cursor} {mapping : Mapping} {name : Option Nat} (fits : Fits cursor)
    (next : Fits (cursor.behind mapping name)) :
    segment cursor mapping name = some (SourceMap.segment cursor mapping name) := by
  have column := symbols_eq next.generatedColumn fits.generatedColumn
  have source := symbols_eq next.source fits.source
  have line := symbols_eq next.line fits.line
  have sourceColumn := symbols_eq next.column fits.column
  simp only [Cursor.behind] at column source line sourceColumn
  cases name with
  | none => simp [segment, SourceMap.segment, column, source, line, sourceColumn]
  | some index =>
      have named : symbols index cursor.name = _ := symbols_eq next.name fits.name
      simp [segment, SourceMap.segment, column, source, line, sourceColumn, named]

theorem encodeFrom_eq {names : List String} {cursor : Cursor} {mappings : List Mapping} (fits : Fits cursor)
    (next : ∀ mapping ∈ mappings, ∀ cursor, Fits cursor →
      Fits (cursor.behind mapping (mapping.name.map (names.idxOf ·)))) (isFirst : Bool) :
    encodeFrom names cursor isFirst mappings = some (SourceMap.encodeFrom names cursor isFirst mappings) := by
  induction mappings generalizing cursor isFirst with
  | nil => rfl
  | cons mapping rest ih =>
      rw [List.forall_mem_cons] at next
      have written := segment_eq (fits.onLine mapping.generatedLine) (next.1 _ (fits.onLine mapping.generatedLine))
      simp [encodeFrom, SourceMap.encodeFrom, written, ih (next.1 cursor fits) next.2]

end Words

section Bounds

variable {operations : List Operation} {mapping : Mapping}

theorem length_utf8_le_of_prefix {front text : List Char} (inside : front <+: text) :
    (utf8 front).length ≤ (utf8 text).length := by
  obtain ⟨back, rfl⟩ := inside
  simp

theorem length_le_length_utf8 (text : List Char) : text.length ≤ (utf8 text).length := by
  induction text with
  | nil => exact Nat.le_refl 0
  | cons character rest ih =>
      have size := character.utf8Size_pos
      rw [utf8_cons, List.length_append, String.length_utf8EncodeChar, List.length_cons]
      omega

theorem generatedColumn_le (member : mapping ∈ recordedBy operations) :
    mapping.generatedColumn ≤ (utf8 (writtenBy operations)).length := by
  obtain ⟨front, inside, place⟩ := exists_front_of_mem member
  rw [Position.after_lineStart] at place
  calc mapping.generatedColumn = bytesSinceLineFeed (utf8 front) := congrArg Position.column place
    _ ≤ (utf8 front).length := (List.takeWhile_prefix _).length_le.trans_eq List.length_reverse
    _ ≤ (utf8 (writtenBy operations)).length := length_utf8_le_of_prefix inside

/-- The mappings that are kept stand at different places, and a text has one place more than characters. -/
theorem length_lastAtPlaces_le (operations : List Operation) :
    (lastAtPlaces (recordedBy operations)).length ≤ (writtenBy operations).length + 1 := by
  have sorted := (Builder.keeps_ofOperations operations).sorted
  have nodup : ((lastAtPlaces (recordedBy operations)).map Mapping.place).Nodup :=
    List.pairwise_map.mpr (sorted.imp Position.Before.ne)
  have inside : (lastAtPlaces (recordedBy operations)).map Mapping.place ⊆
      (writtenBy operations).inits.map (⟨0, 0⟩ : Position).after := by
    intro place member
    obtain ⟨mapping, kept, rfl⟩ := List.mem_map.mp member
    obtain ⟨front, isFront, same⟩ := exists_front_of_mem (mem_lastAtPlaces kept)
    exact List.mem_map.mpr ⟨front, (List.mem_inits ..).mpr isFront, same.symm⟩
  have bound := (List.subperm_of_subset nodup inside).length_le
  rwa [List.length_map, List.length_map, List.length_inits] at bound

theorem origin_lt (member : mapping ∈ recordedBy operations) :
    mapping.source < 2 ^ 32 ∧ mapping.line < 2 ^ 32 ∧ mapping.column < 2 ^ 32 := by
  rw [recordedBy] at member
  generalize ([] : List Char) = before at member
  induction operations generalizing before with
  | nil => cases member
  | cons first rest ih =>
      obtain here | later := List.mem_append.mp member
      · cases first with
        | addMapping source line column name =>
            obtain rfl := List.mem_singleton.mp here
            have lineBound := line.toNat_lt
            exact ⟨source.toNat_lt, by dsimp only; omega, column.toNat_lt⟩
        | _ => cases here
      · exact ih _ later

theorem fits_behind (short : (utf8 (writtenBy operations)).length < 2 ^ 62) {cursor : Cursor} (fits : Words.Fits cursor)
    (member : mapping ∈ lastAtPlaces (recordedBy operations)) :
    Words.Fits (cursor.behind mapping
      (mapping.name.map (((lastAtPlaces (recordedBy operations)).filterMap (·.name)).eraseDups.idxOf ·))) := by
  have recorded := mem_lastAtPlaces member
  have column := generatedColumn_le recorded
  obtain ⟨source, line, sourceColumn⟩ := origin_lt recorded
  refine ⟨?_, ?_, ?_, ?_, ?_⟩ <;> simp only [Cursor.behind]
  · omega
  · omega
  · omega
  · omega
  · cases named : mapping.name with
    | none => exact fits.name
    | some name =>
        let used := (lastAtPlaces (recordedBy operations)).filterMap (·.name)
        have inside : name ∈ used.eraseDups := List.mem_eraseDups.mpr (List.mem_filterMap.mpr ⟨mapping, member, named⟩)
        -- There are no more names than mappings, and no more mappings than places.
        have names : used.eraseDups.length ≤ used.length :=
          (List.subperm_of_subset (nodup_eraseDups used) fun _ => List.mem_eraseDups.mp).length_le
        have mappings : used.length ≤ (lastAtPlaces (recordedBy operations)).length := List.length_filterMap_le ..
        have places := length_lastAtPlaces_le operations
        have characters := length_le_length_utf8 (writtenBy operations)
        have index : used.eraseDups.idxOf name < used.eraseDups.length := List.idxOf_lt_length_of_mem inside
        show used.eraseDups.idxOf name < 2 ^ 62
        omega

end Bounds

theorem Builder.names_ofOperations (operations : List Operation) :
    (ofOperations operations).names = ((lastAtPlaces (recordedBy operations)).filterMap (·.name)).eraseDups := by
  rw [names, (keeps_ofOperations operations).mappings]

/-- Whatever is done with a builder, its map decodes to what was recorded last at each place, in the order of the places
and with the names in the order of their first use; and no step of the encoder overflows. -/
theorem build_decodes (operations : List Operation) (short : (utf8 (writtenBy operations)).length < 2 ^ 62) :
    let map := (Builder.ofOperations operations).build
    let kept := lastAtPlaces (recordedBy operations)
    let used := kept.filterMap (·.name)
    map.decode = some (kept.map .ofMapping) ∧
      (kept.Pairwise fun first second => first.place.Before second.place) ∧
      map.names.Nodup ∧ (∀ name, name ∈ map.names ↔ name ∈ used) ∧
      (map.names.Pairwise fun first second => used.idxOf first < used.idxOf second) ∧
      map.sources.Nodup ∧ (∀ path, path ∈ map.sources ↔ .addSource path ∈ operations) ∧
      Words.encode map.names kept = some map.mappings := by
  intro map kept used
  have keeps := Builder.keeps_ofOperations operations
  have names : map.names = used.eraseDups := Builder.names_ofOperations operations
  have encoded : map.mappings = encode map.names kept := congrArg (encode map.names) keeps.mappings
  obtain ⟨sources, listed⟩ := Builder.sources_ofOperations operations
  have start : Words.Fits .start := ⟨by decide, by decide, by decide, by decide, by decide⟩
  refine ⟨?_, keeps.sorted, ?_, ?_, ?_, sources, listed, ?_⟩
  · refine decode_encode encoded (keeps.sorted.imp Position.Before.line_le) fun mapping member name same => ?_
    rw [names, List.mem_eraseDups]
    exact List.mem_filterMap.mpr ⟨mapping, member, same⟩
  · rw [names]
    exact nodup_eraseDups used
  · intro name
    rw [names, List.mem_eraseDups]
  · rw [names]
    exact pairwise_idxOf_eraseDups used
  · rw [encoded, names, Words.encode,
      Words.encodeFrom_eq start fun mapping member cursor fits => fits_behind short fits member]
    rfl

/-- A mapping that is replaced, an empty line, a character of two bytes, and a name and a source that come again. -/
theorem build_decodes_replaced :
    let operations : List Operation := [.setFile "out.lua", .addSource "a.lua", .addMapping 0 1 0 (some "w"),
      .addMapping 0 1 4 (some "x"), .advance "é\n\n", .addSource "b.lua", .addSource "a.lua", .setContent 1 "t",
      .addMapping 1 0 4294967295 none, .advance "é", .addMapping 7 3 2 (some "x")]
    (utf8 (writtenBy operations)).length < 2 ^ 62 ∧
      (Builder.ofOperations operations).build.decode = some [⟨⟨0, 0⟩, some (0, ⟨0, 4⟩), some "x"⟩,
        ⟨⟨2, 0⟩, some (1, ⟨0, 4294967295⟩), none⟩, ⟨⟨2, 2⟩, some (7, ⟨2, 2⟩), some "x"⟩] := by
  intro operations
  have short : (utf8 (writtenBy operations)).length < 2 ^ 62 := by decide +kernel
  have kept : (lastAtPlaces (recordedBy operations)).map Segment.ofMapping = [⟨⟨0, 0⟩, some (0, ⟨0, 4⟩), some "x"⟩,
      ⟨⟨2, 0⟩, some (1, ⟨0, 4294967295⟩), none⟩, ⟨⟨2, 2⟩, some (7, ⟨2, 2⟩), some "x"⟩] := by decide +kernel
  exact ⟨short, (build_decodes operations short).1.trans (congrArg some kept)⟩

end SourceMap
end LuaMinifier
