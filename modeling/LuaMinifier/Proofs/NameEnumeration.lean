import LuaMinifier.Proofs.NameOrder

/-!
The odometer goes through all names: what its steps show, one after the other, are the words over the alphabet that do
not start with a digit, in their order, each of them once.
-/

namespace LuaMinifier

open Lexeme

/-- The alphabet of short names, in its order. -/
def nameAlphabet : List Char := "0123456789abcdefghijklmnopqrstuvwxyzABCDEFGHIJKLMNOPQRSTUVWXYZ_".toList

/-- The words over the alphabet that do not start with a digit. The word without symbols is none of them. -/
structure IsShortName (name : String) : Prop where
  nonempty : name ≠ ""
  symbols : ∀ symbol ∈ name.toList, symbol ∈ nameAlphabet
  letter : ∀ first ∈ name.toList.head?, first.isDigit = false

theorem nameAlphabet_eq : nameAlphabet = (List.finRange 63).map nameSymbol := by decide +kernel

/-- The places of the symbols are counted along the alphabet. -/
theorem symbolPlace_nameAlphabet : nameAlphabet.map symbolPlace = List.range 63 := by
  rw [nameAlphabet_eq, List.map_map, ← List.map_coe_finRange_eq_range]
  exact List.map_congr_left fun place _ => symbolPlace_nameSymbol place

theorem mem_nameAlphabet_iff {symbol : Char} : symbol ∈ nameAlphabet ↔ continuesName symbol = true := by
  rw [nameAlphabet_eq, List.mem_map]
  constructor
  · rintro ⟨place, _, rfl⟩
    exact nameSymbol_continuesName place
  · intro continues
    obtain ⟨place, rfl⟩ := exists_nameSymbol continues
    exact ⟨place, List.mem_finRange place, rfl⟩

theorem startsName_iff {symbol : Char} (member : symbol ∈ nameAlphabet) :
    startsName symbol = true ↔ symbol.isDigit = false := by
  have places : ∀ place, startsName (nameSymbol place) = true ↔ (nameSymbol place).isDigit = false := by decide
  obtain ⟨place, rfl⟩ := exists_nameSymbol (mem_nameAlphabet_iff.mp member)
  exact places place

theorem isShortName_iff {name : String} : IsShortName name ↔ Lexeme.isName name.toList = true := by
  cases symbols : name.toList with
  | nil =>
      have empty : name = "" := by rw [← String.ofList_toList (s := name), symbols]
      simp only [Lexeme.isName, Bool.false_eq_true, iff_false]
      exact fun short => short.nonempty empty
  | cons first rest =>
      simp only [Lexeme.isName, Bool.and_eq_true, List.all_eq_true]
      constructor
      · rintro ⟨-, members, letter⟩
        simp only [symbols, List.forall_mem_cons, List.head?_cons, Option.mem_some_iff, forall_eq'] at members letter
        exact ⟨(startsName_iff members.1).mpr letter,
          fun symbol member => mem_nameAlphabet_iff.mp (members.2 symbol member)⟩
      · rintro ⟨starts, continues⟩
        have member := mem_nameAlphabet_iff.mpr (continuesName_of_startsName starts)
        refine ⟨?_, ?_, ?_⟩
        · rintro rfl
          simp at symbols
        · rw [symbols, List.forall_mem_cons]
          exact ⟨member, fun symbol behind => mem_nameAlphabet_iff.mpr (continues symbol behind)⟩
        · rw [symbols]
          simpa using (startsName_iff member).mp starts

namespace Odometer

/-- The odometer after some steps. -/
def after : Nat → Odometer
  | 0 => start
  | steps + 1 => (after steps).advance

/-- The name that a step shows; the first step has the number zero. -/
def nth (number : Nat) : String := (after (number + 1)).current

theorem after_lettered (steps : Nat) : Lettered (after steps).places := by
  induction steps with
  | zero => simp [after, start, Lettered]
  | succ steps ih => exact (advance_lettered ih).2

theorem rank_after_lt {steps more : Nat} (less : steps < more) : (after steps).rank < (after more).rank := by
  induction less with
  | refl => exact rank_advance _
  | step _ ih => exact ih.trans (rank_advance _)

theorem le_rank_after (steps : Nat) : steps ≤ (after steps).rank := by
  induction steps with
  | zero => exact Nat.zero_le _
  | succ steps ih => exact Nat.succ_le_of_lt (Nat.lt_of_le_of_lt ih (rank_advance _))

theorem Shows.rank_pos {odometer : Odometer} (shows : odometer.Shows) : 0 < odometer.rank := by
  obtain ⟨places⟩ := odometer
  cases places with
  | nil => exact absurd rfl shows.1
  | cons place rest =>
      simp only [rank, rankOf]
      omega

/-- No step leaves out a name: as long as an odometer was not reached, the steps stay behind it. -/
theorem reached_or_behind {odometer : Odometer} (shows : odometer.Shows) (steps : Nat) :
    (∃ number, after (number + 1) = odometer) ∨ (after steps).rank < odometer.rank := by
  induction steps with
  | zero => exact .inr shows.rank_pos
  | succ steps ih =>
      rcases ih with reached | behind
      · exact .inl reached
      · rcases Nat.lt_or_eq_of_le (rank_advance_le shows behind) with further | same
        · exact .inr further
        · exact .inl ⟨steps, eq_of_rank same⟩

theorem exists_after {odometer : Odometer} (shows : odometer.Shows) : ∃ number, after (number + 1) = odometer :=
  (reached_or_behind shows odometer.rank).resolve_right (Nat.not_lt_of_le (le_rank_after _))

theorem precedes_nth_iff {number other : Nat} : Precedes (nth number) (nth other) ↔ number < other := by
  constructor
  · intro early
    by_contra late
    rcases Nat.eq_or_lt_of_not_lt late with rfl | later
    · exact early.asymm early
    · exact early.asymm (precedes_of_rank_lt (rank_after_lt (Nat.succ_lt_succ later)))
  · exact fun less => precedes_of_rank_lt (rank_after_lt (Nat.succ_lt_succ less))

/-- The names that the steps show are the words over the alphabet that do not start with a digit. They come in the order
of their lengths and then of the alphabet, in which the places of the symbols are counted, and each of them comes exactly
once. -/
theorem nth_enumerates :
    (∀ number, IsShortName (nth number)) ∧
      (∀ number other, Precedes (nth number) (nth other) ↔ number < other) ∧
      nameAlphabet.map symbolPlace = List.range 63 ∧
      ∀ name, IsShortName name ↔ ∃! number, nth number = name := by
  have isShort (number : Nat) : IsShortName (nth number) :=
    isShortName_iff.mpr (isName_current (advance_lettered (after_lettered number)))
  refine ⟨isShort, fun number other => precedes_nth_iff, symbolPlace_nameAlphabet, fun name => ⟨fun short => ?_, ?_⟩⟩
  · obtain ⟨odometer, shows, rfl⟩ := exists_shows (isShortName_iff.mp short)
    obtain ⟨number, rfl⟩ := exists_after shows
    refine ⟨number, rfl, fun other same => ?_⟩
    by_contra different
    rcases Nat.lt_or_gt_of_ne different with less | less
    all_goals
      have early := precedes_nth_iff.mpr less
      rw [show nth other = nth number from same] at early
      exact early.asymm early
  · rintro ⟨number, rfl, -⟩
    exact isShort number

example : nth 0 = "a" ∧ nth 52 = "_" ∧ nth 53 = "a0" := by decide +kernel

end Odometer
end LuaMinifier
