import LuaMinifier.Proofs.Recording
import Mathlib.Data.List.Basic

/-!
Reading a source map by the rules of version 3, and what is read from a map that was encoded. A semicolon ends a line of
the generated text, a comma ends a segment. The numbers of a segment are relative to those of the segment before it,
and columns of the generated text start from zero in every line.
-/

namespace LuaMinifier

def Base64.value? (symbol : Char) : Option Nat :=
  if symbol.isUpper then some (symbol.toNat - 'A'.toNat)
  else if symbol.isLower then some (symbol.toNat - 'a'.toNat + 26)
  else if symbol.isDigit then some (symbol.toNat - '0'.toNat + 52)
  else if symbol = '+' then some 62
  else if symbol = '/' then some 63
  else none

theorem Base64.value_symbol : ∀ value < 64, value? (symbol value) = some value := by decide

theorem Base64.symbol_ne : ∀ value < 64, symbol value ≠ ',' ∧ symbol value ≠ ';' := by decide

namespace Vlq

/-- The integer whose sign is the lowest bit of a number. -/
def toInt (value : Nat) : Int := if value % 2 = 0 then (value / 2 : Nat) else -(value / 2 : Nat)

/-- The numbers that digits stand for. A digit from 32 on is continued by the digits behind it. -/
def numbers : List Nat → Option (List Nat)
  | [] => some []
  | digit :: rest =>
    if digit < 32 then (numbers rest).map (digit :: ·)
    else
      match numbers rest with
      | some (higher :: others) => some ((digit - 32 + 32 * higher) :: others)
      | _ => none

def decode (symbols : List Char) : Option (List Int) :=
  ((symbols.mapM Base64.value?).bind numbers).map (·.map toInt)

theorem toInt_ofInt (value : Int) : toInt (ofInt value) = value := by
  cases value with
  | ofNat value => simp [toInt, ofInt]
  | negSucc value =>
      simp only [toInt, ofInt]
      omega

theorem numbers_digits (value : Nat) (rest : List Nat) :
    numbers (digits value ++ rest) = (numbers rest).map (value :: ·) := by
  induction value using Nat.strongRecOn with
  | ind value ih =>
      rw [digits]
      split
      next small => simp [numbers, small]
      next large =>
        rw [List.cons_append, numbers, if_neg (by omega), ih (value / 32) (by omega)]
        cases numbers rest with
        | none => rfl
        | some others =>
            simp only [Option.map_some, Option.some.injEq, List.cons.injEq, and_true]
            omega

theorem numbers_flatMap_digits (values : List Nat) : numbers (values.flatMap digits) = some values := by
  induction values with
  | nil => rfl
  | cons value rest ih => rw [List.flatMap_cons, numbers_digits, ih, Option.map_some]

theorem digit_lt (value : Nat) : ∀ digit ∈ digits value, digit < 64 := by
  induction value using Nat.strongRecOn with
  | ind value ih =>
      rw [digits]
      split
      next small =>
        simp
        omega
      next large => exact List.forall_mem_cons.mpr ⟨by omega, ih (value / 32) (by omega)⟩

theorem mapM_value {digits : List Nat} (small : ∀ digit ∈ digits, digit < 64) :
    (digits.map Base64.symbol).mapM Base64.value? = some digits := by
  induction digits with
  | nil => rfl
  | cons digit rest ih =>
      rw [List.forall_mem_cons] at small
      simp [Base64.value_symbol digit small.1, ih small.2]

theorem decode_encode (values : List Int) : decode (values.flatMap encode) = some values := by
  have symbols : values.flatMap encode = ((values.map ofInt).flatMap digits).map Base64.symbol := by
    rw [List.map_flatMap, List.flatMap_map]
    rfl
  have small : ∀ digit ∈ (values.map ofInt).flatMap digits, digit < 64 := by
    intro digit member
    obtain ⟨value, -, inside⟩ := List.mem_flatMap.mp member
    exact digit_lt value digit inside
  rw [decode, symbols, mapM_value small, Option.bind_some, numbers_flatMap_digits]
  simp [Function.comp_def, toInt_ofInt]

theorem encode_ne (value : Int) : ∀ symbol ∈ encode value, symbol ≠ ',' ∧ symbol ≠ ';' := by
  intro symbol member
  obtain ⟨digit, inside, rfl⟩ := List.mem_map.mp member
  exact Base64.symbol_ne digit (digit_lt _ digit inside)

theorem encode_ne_nil (value : Int) : encode value ≠ [] := by
  unfold encode
  rw [digits]
  split <;> simp

end Vlq

namespace SourceMap

/-- A segment of a map: a place in the generated text, the index of a source with a place in it, and a name. All lines
count from zero. -/
structure Segment where
  place : Position
  origin : Option (Nat × Position)
  name : Option String
deriving DecidableEq, Repr

def moved (old : Nat) (difference : Int) : Option Nat := Int.toNat? (old + difference)

/-- Reads the numbers of a segment: one, four or five. -/
def Cursor.read (names : List String) (cursor : Cursor) : List Int → Option (Cursor × Segment)
  | [column] => do
    let column ← moved cursor.generatedColumn column
    return ({ cursor with generatedColumn := column }, ⟨⟨cursor.generatedLine, column⟩, none, none⟩)
  | [column, source, line, sourceColumn] => do
    let next : Cursor := ⟨cursor.generatedLine, ← moved cursor.generatedColumn column, ← moved cursor.source source,
      ← moved cursor.line line, ← moved cursor.column sourceColumn, cursor.name⟩
    return (next, ⟨⟨next.generatedLine, next.generatedColumn⟩, some (next.source, ⟨next.line, next.column⟩), none⟩)
  | [column, source, line, sourceColumn, name] => do
    let next : Cursor := ⟨cursor.generatedLine, ← moved cursor.generatedColumn column, ← moved cursor.source source,
      ← moved cursor.line line, ← moved cursor.column sourceColumn, ← moved cursor.name name⟩
    let word ← names[next.name]?
    return (next, ⟨⟨next.generatedLine, next.generatedColumn⟩, some (next.source, ⟨next.line, next.column⟩), some word⟩)
  | _ => none

/-- Ends a segment of which the symbols are known. There is none between two separators that follow each other. -/
def Cursor.finish (names : List String) (cursor : Cursor) (symbols : List Char) : Option (Cursor × List Segment) :=
  if symbols.isEmpty then some (cursor, [])
  else ((Vlq.decode symbols).bind (cursor.read names)).map fun result => (result.1, [result.2])

/-- Reads a list of segments behind the symbols of a segment that has begun. -/
def decodeFrom (names : List String) (cursor : Cursor) (symbols : List Char) : List Char → Option (List Segment)
  | [] => (cursor.finish names symbols).map (·.2)
  | character :: rest =>
    if character = ',' then
      (cursor.finish names symbols).bind fun ended => (decodeFrom names ended.1 [] rest).map (ended.2 ++ ·)
    else if character = ';' then
      (cursor.finish names symbols).bind fun ended =>
        (decodeFrom names (ended.1.onLine (ended.1.generatedLine + 1)) [] rest).map (ended.2 ++ ·)
    else decodeFrom names cursor (symbols ++ [character]) rest

def decode (map : SourceMap) : Option (List Segment) := decodeFrom map.names .start [] map.mappings.toList

def Segment.ofMapping (mapping : Mapping) : Segment :=
  ⟨mapping.place, some (mapping.source, ⟨mapping.line, mapping.column⟩), mapping.name⟩

theorem moved_sub (new old : Nat) : moved old ((new : Int) - old) = some new := by
  have same : (old : Int) + (new - old) = new := by omega
  rw [moved, same]
  rfl

def Cursor.differences (cursor : Cursor) (mapping : Mapping) (name : Option Nat) : List Int :=
  [(mapping.generatedColumn : Int) - cursor.generatedColumn, (mapping.source : Int) - cursor.source,
    (mapping.line : Int) - cursor.line, (mapping.column : Int) - cursor.column]
    ++ (name.map fun index => (index : Int) - cursor.name).toList

theorem segment_eq (cursor : Cursor) (mapping : Mapping) (name : Option Nat) :
    segment cursor mapping name = (cursor.differences mapping name).flatMap Vlq.encode := by
  cases name <;> simp [segment, difference, Cursor.differences]

theorem Cursor.read_differences {names : List String} {cursor : Cursor} {mapping : Mapping}
    (here : cursor.generatedLine = mapping.generatedLine) (known : ∀ name ∈ mapping.name, name ∈ names) :
    cursor.read names (cursor.differences mapping (mapping.name.map (names.idxOf ·))) =
      some (cursor.behind mapping (mapping.name.map (names.idxOf ·)), .ofMapping mapping) := by
  obtain ⟨generatedLine, generatedColumn, source, line, column, name⟩ := mapping
  obtain rfl : cursor.generatedLine = generatedLine := here
  cases name with
  | none => simp [read, differences, moved_sub, behind, Segment.ofMapping, Mapping.place]
  | some word =>
      have found : names[names.idxOf word]? = some word := List.getElem?_idxOf (known word rfl)
      simp [read, differences, moved_sub, behind, Segment.ofMapping, Mapping.place, found]

section Decoding

variable {names : List String} {cursor : Cursor}

theorem decodeFrom_symbols {text : List Char} (plain : ∀ symbol ∈ text, symbol ≠ ',' ∧ symbol ≠ ';')
    (symbols rest : List Char) : decodeFrom names cursor symbols (text ++ rest) =
      decodeFrom names cursor (symbols ++ text) rest := by
  induction text generalizing symbols with
  | nil => rw [List.nil_append, List.append_nil]
  | cons symbol others ih =>
      rw [List.forall_mem_cons] at plain
      rw [List.cons_append, decodeFrom, if_neg plain.1.1, if_neg plain.1.2, ih plain.2, List.append_assoc,
        List.singleton_append]

theorem segment_plain (mapping : Mapping) (name : Option Nat) :
    ∀ symbol ∈ segment cursor mapping name, symbol ≠ ',' ∧ symbol ≠ ';' := by
  rw [segment_eq]
  intro symbol member
  obtain ⟨value, -, inside⟩ := List.mem_flatMap.mp member
  exact Vlq.encode_ne value symbol inside

theorem Cursor.finish_nil (names : List String) (cursor : Cursor) : cursor.finish names [] = some (cursor, []) := rfl

theorem Cursor.generatedLine_onLine {line : Nat} (ahead : cursor.generatedLine ≤ line) :
    (cursor.onLine line).generatedLine = line := by
  unfold onLine
  split
  · rfl
  · omega

theorem Cursor.onLine_self (cursor : Cursor) : cursor.onLine cursor.generatedLine = cursor := if_neg (Nat.lt_irrefl _)

theorem Cursor.onLine_onLine {line : Nat} (ahead : cursor.generatedLine < line) :
    (cursor.onLine (cursor.generatedLine + 1)).onLine line = cursor.onLine line := by
  simp only [onLine, Nat.lt_succ_self, if_true, ahead]
  split
  · rfl
  · simp only [Cursor.mk.injEq, and_true]
    omega

theorem Cursor.behind_onLine (cursor : Cursor) (line : Nat) (mapping : Mapping) (name : Option Nat) :
    (cursor.onLine line).behind mapping name = cursor.behind mapping name := by
  unfold onLine
  split <;> rfl

theorem Cursor.finish_segment {mapping : Mapping} (ahead : cursor.generatedLine ≤ mapping.generatedLine)
    (known : ∀ name ∈ mapping.name, name ∈ names) :
    (cursor.onLine mapping.generatedLine).finish names
        (segment (cursor.onLine mapping.generatedLine) mapping (mapping.name.map (names.idxOf ·))) =
      some (cursor.behind mapping (mapping.name.map (names.idxOf ·)), [.ofMapping mapping]) := by
  have filled : (segment (cursor.onLine mapping.generatedLine) mapping
      (mapping.name.map (names.idxOf ·))).isEmpty = false := by
    simp [segment, difference, Vlq.encode_ne_nil]
  rw [finish, filled, segment_eq, Vlq.decode_encode, Option.bind_some,
    read_differences (generatedLine_onLine ahead) known, behind_onLine]
  rfl

variable {start : Cursor} {symbols : List Char} {segments : List Segment}

theorem decodeFrom_semicolon (ended : start.finish names symbols = some (cursor, segments)) (rest : List Char) :
    decodeFrom names start symbols (';' :: rest) =
      (decodeFrom names (cursor.onLine (cursor.generatedLine + 1)) [] rest).map (segments ++ ·) := by
  rw [decodeFrom, if_neg (by decide), if_pos rfl, ended]
  rfl

theorem decodeFrom_semicolons (ended : start.finish names symbols = some (cursor, segments)) (steps : Nat)
    (rest : List Char) : decodeFrom names start symbols (List.replicate (steps + 1) ';' ++ rest) =
      (decodeFrom names (cursor.onLine (cursor.generatedLine + (steps + 1))) [] rest).map (segments ++ ·) := by
  induction steps generalizing start symbols cursor segments with
  | zero => exact decodeFrom_semicolon ended rest
  | succ steps ih =>
      have next : (cursor.onLine (cursor.generatedLine + 1)).generatedLine = cursor.generatedLine + 1 :=
        Cursor.generatedLine_onLine (Nat.le_succ _)
      have later : (cursor.onLine (cursor.generatedLine + 1)).onLine (cursor.generatedLine + 1 + (steps + 1)) =
          cursor.onLine (cursor.generatedLine + (steps + 1 + 1)) := by
        rw [Cursor.onLine_onLine (by omega), Nat.add_assoc, Nat.add_comm 1]
      rw [List.replicate_succ, List.cons_append, decodeFrom_semicolon ended, ih (Cursor.finish_nil names _), next,
        later]
      simp

theorem decodeFrom_separation (ended : start.finish names symbols = some (cursor, segments)) {line : Nat}
    (ahead : cursor.generatedLine ≤ line) (rest : List Char) :
    decodeFrom names start symbols (separation cursor false line ++ rest) =
      (decodeFrom names (cursor.onLine line) [] rest).map (segments ++ ·) := by
  unfold separation
  split
  next later =>
    obtain ⟨steps, rfl⟩ := Nat.exists_eq_add_of_lt later
    rw [show cursor.generatedLine + steps + 1 - cursor.generatedLine = steps + 1 by omega,
      decodeFrom_semicolons ended]
    rfl
  next same =>
    obtain rfl : line = cursor.generatedLine := by omega
    simp [decodeFrom, ended, Cursor.onLine_self]

theorem decodeFrom_first {line : Nat} (ahead : cursor.generatedLine ≤ line) (rest : List Char) :
    decodeFrom names cursor [] (separation cursor true line ++ rest) =
      decodeFrom names (cursor.onLine line) [] rest := by
  unfold separation
  split
  next later =>
    obtain ⟨steps, rfl⟩ := Nat.exists_eq_add_of_lt later
    rw [show cursor.generatedLine + steps + 1 - cursor.generatedLine = steps + 1 by omega,
      decodeFrom_semicolons (Cursor.finish_nil names cursor)]
    simp [Nat.add_assoc]
  next same =>
    obtain rfl : line = cursor.generatedLine := by omega
    simp [Cursor.onLine_self]

theorem decodeFrom_segment (mapping : Mapping) (name : Option Nat) (rest : List Char) :
    decodeFrom names cursor [] (segment cursor mapping name ++ rest) =
      decodeFrom names cursor (segment cursor mapping name) rest :=
  decodeFrom_symbols (segment_plain mapping name) [] rest

theorem decodeFrom_encodeFrom {mappings : List Mapping} (ended : start.finish names symbols = some (cursor, segments))
    (ahead : ∀ mapping ∈ mappings, cursor.generatedLine ≤ mapping.generatedLine)
    (ordered : mappings.Pairwise fun first second => first.generatedLine ≤ second.generatedLine)
    (known : ∀ mapping ∈ mappings, ∀ name ∈ mapping.name, name ∈ names) :
    decodeFrom names start symbols (encodeFrom names cursor false mappings) =
      some (segments ++ mappings.map .ofMapping) := by
  -- The last segment read stays open until a separator or the end of the text follows it.
  induction mappings generalizing start symbols cursor segments with
  | nil => simp [encodeFrom, decodeFrom, ended]
  | cons mapping rest ih =>
      rw [List.forall_mem_cons] at ahead known
      obtain ⟨behind, others⟩ := List.pairwise_cons.mp ordered
      have read := Cursor.finish_segment ahead.1 known.1
      rw [encodeFrom, List.append_assoc, decodeFrom_separation ended ahead.1, decodeFrom_segment]
      exact congrArg (Option.map (segments ++ ·)) (ih read behind others known.2)

theorem decode_encode {map : SourceMap} {mappings : List Mapping} (encoded : map.mappings = encode map.names mappings)
    (ordered : mappings.Pairwise fun first second => first.generatedLine ≤ second.generatedLine)
    (known : ∀ mapping ∈ mappings, ∀ name ∈ mapping.name, name ∈ map.names) :
    map.decode = some (mappings.map .ofMapping) := by
  rw [decode, encoded, encode, String.toList_ofList]
  cases mappings with
  | nil => rfl
  | cons mapping rest =>
      rw [List.forall_mem_cons] at known
      obtain ⟨behind, others⟩ := List.pairwise_cons.mp ordered
      have first : Cursor.start.generatedLine ≤ mapping.generatedLine := Nat.zero_le _
      have read := Cursor.finish_segment first known.1
      rw [encodeFrom, List.append_assoc, decodeFrom_first first, decodeFrom_segment]
      exact decodeFrom_encodeFrom read behind others known.2

end Decoding

end SourceMap

end LuaMinifier
