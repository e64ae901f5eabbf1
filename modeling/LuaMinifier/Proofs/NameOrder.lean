import LuaMinifier.Proofs.FreshNames
import Mathlib.Data.List.Shortlex
import Mathlib.Data.Set.List

/-!
The order of short names: shorter names come first, and names of one length in the order of the alphabet. The odometer
goes through all names in this order and leaves none out.
-/

namespace LuaMinifier

open Lexeme

/-- Shorter names come first, and names of one length in the order of the alphabet of short names. -/
def Precedes (first second : String) : Prop :=
  List.Shortlex (fun symbol other => symbolPlace symbol < symbolPlace other) first.toList second.toList

theorem Precedes.asymm {first second : String} (early : Precedes first second) : ¬ Precedes second first := by
  have : Std.Asymm fun symbol other : Char => symbolPlace symbol < symbolPlace other :=
    ⟨fun _ _ => Nat.lt_asymm⟩
  exact Std.Asymm.asymm (r := List.Shortlex _) _ _ early

theorem toNat_lt_of_continuesName {symbol : Char} (continues : continuesName symbol = true) : symbol.toNat < 128 := by
  simp only [continuesName, Char.isAlphanum, Char.isDigit, Bool.or_eq_true, Bool.and_eq_true, decide_eq_true_eq]
    at continues
  rcases continues with (letter | ⟨-, digit⟩) | rfl
  · rcases (Bool.or_eq_true ..).mp letter with upper | lower
    · exact Nat.lt_of_le_of_lt (m := 90) (of_decide_eq_true upper).2 (by decide)
    · have last := of_decide_eq_true ((Bool.and_eq_true ..).mp lower).2
      exact Nat.lt_of_le_of_lt (m := 122) last (by decide)
  · exact Nat.lt_of_le_of_lt (m := 57) digit (by decide)
  · decide

theorem exists_nameSymbol {symbol : Char} (continues : continuesName symbol = true) :
    ∃ place, nameSymbol place = symbol := by
  have codes : ∀ code < 128, continuesName (Char.ofNat code) = true →
      ∃ place, nameSymbol place = Char.ofNat code := by decide +kernel
  rw [← Char.ofNat_toNat symbol] at continues ⊢
  exact codes symbol.toNat (toNat_lt_of_continuesName (by simpa using continues)) continues

theorem exists_nameSymbol_letter {symbol : Char} (starts : startsName symbol = true) :
    ∃ place : Fin 63, 10 ≤ place.val ∧ nameSymbol place = symbol := by
  obtain ⟨place, rfl⟩ := exists_nameSymbol (continuesName_of_startsName starts)
  have letters : ∀ place : Fin 63, startsName (nameSymbol place) = true → 10 ≤ place.val := by decide
  exact ⟨place, letters place starts, rfl⟩

namespace Odometer

theorem rankOf_injective {places others : List (Fin 63)} (same : rankOf places = rankOf others) : places = others := by
  induction places generalizing others with
  | nil =>
      cases others with
      | nil => rfl
      | cons other rest =>
          simp only [rankOf] at same
          omega
  | cons place rest ih =>
      cases others with
      | nil =>
          simp only [rankOf] at same
          omega
      | cons other more =>
          simp only [rankOf] at same
          have bound := place.isLt
          have bound' := other.isLt
          have first : place = other := Fin.ext (by omega)
          have behind : rest = more := ih (by omega)
          rw [first, behind]

theorem lex_append {first second : List Char} {less : Char → Char → Prop} (early : List.Lex less first second)
    (same : first.length = second.length) (more further : List Char) :
    List.Lex less (first ++ more) (second ++ further) := by
  induction early with
  | nil => simp at same
  | cons _ ih => exact .cons (ih (by simpa using same))
  | rel symbol => exact .rel symbol

theorem lex_of_rankOf_lt {places others : List (Fin 63)} (same : places.length = others.length)
    (less : rankOf places < rankOf others) :
    List.Lex (fun symbol other => symbolPlace symbol < symbolPlace other) (places.reverse.map nameSymbol)
      (others.reverse.map nameSymbol) := by
  -- The last symbol stands first, so that it counts only if the symbols before it are the same.
  induction places generalizing others with
  | nil =>
      rw [List.length_eq_zero_iff.mp same.symm] at less
      exact absurd less (Nat.lt_irrefl _)
  | cons place rest ih =>
      cases others with
      | nil => simp at same
      | cons other more =>
          have bound := place.isLt
          have bound' := other.isLt
          simp only [rankOf, List.length_cons, Nat.add_right_cancel_iff] at less same
          rw [List.reverse_cons, List.reverse_cons, List.map_append, List.map_append]
          rcases Nat.lt_trichotomy (rankOf rest) (rankOf more) with early | equal | late
          · exact lex_append (ih same early) (by simp [same]) _ _
          · rw [rankOf_injective equal]
            refine List.Lex.append_left _ (.rel ?_) _
            rw [symbolPlace_nameSymbol, symbolPlace_nameSymbol]
            omega
          · omega

theorem precedes_of_rank_lt {first second : Odometer} (less : first.rank < second.rank) :
    Precedes first.current second.current := by
  rw [Precedes, List.shortlex_def]
  simp only [current, String.toList_ofList, List.length_map, List.length_reverse]
  rcases Nat.lt_trichotomy first.places.length second.places.length with shorter | same | longer
  · exact .inl shorter
  · exact .inr ⟨same, lex_of_rankOf_lt same less⟩
  · exact absurd (rankOf_lt_of_longer longer) (Nat.lt_asymm less)

theorem exists_shows {name : String} (isName : Lexeme.isName name.toList = true) :
    ∃ odometer : Odometer, odometer.Shows ∧ odometer.current = name := by
  cases symbols : name.toList with
  | nil => simp [symbols, Lexeme.isName] at isName
  | cons first rest =>
      simp only [symbols, Lexeme.isName, Bool.and_eq_true, List.all_eq_true] at isName
      obtain ⟨letter, start, rfl⟩ := exists_nameSymbol_letter isName.1
      obtain ⟨places, rfl⟩ : rest ∈ Set.range (List.map nameSymbol) := by
        rw [Set.range_list_map]
        exact fun symbol member => exists_nameSymbol (isName.2 symbol member)
      refine ⟨⟨places.reverse ++ [letter]⟩, ⟨by simp, ?_⟩, ?_⟩
      · simpa [Lettered] using start
      · rw [← String.ofList_toList (s := name), symbols]
        simp [current]

theorem rankOf_le_of_full {places others : List (Fin 63)} (full : increment places = none)
    (shorter : others.length ≤ places.length) : rankOf others ≤ rankOf places := by
  induction places generalizing others with
  | nil => rw [List.length_eq_zero_iff.mp (Nat.le_zero.mp shorter)]
  | cons place rest ih =>
      simp only [increment] at full
      split at full
      next => simp at full
      next noRoom =>
        cases others with
        | nil => exact Nat.zero_le _
        | cons other more =>
            have below := ih (Option.map_eq_none_iff.mp full) (Nat.le_of_succ_le_succ shorter)
            have bound := other.isLt
            simp only [rankOf]
            omega

theorem rankOf_first_le {places : List (Fin 63)} (lettered : Lettered places) {length : Nat}
    (long : places.length = length + 1) : rankOf (List.replicate length 0 ++ [10]) ≤ rankOf places := by
  induction length generalizing places with
  | zero =>
      obtain ⟨place, rfl⟩ := List.length_eq_one_iff.mp long
      have letter : 10 ≤ place.val := lettered place rfl
      simp only [List.replicate_zero, List.nil_append, rankOf]
      exact Nat.add_le_add_right (Nat.add_le_add_right letter 1) _
  | succ length ih =>
      obtain _ | ⟨place, rest⟩ := places
      · simp at long
      · have inner : Lettered rest := by
          obtain _ | ⟨second, rest⟩ := rest
          · simp at long
          · simpa [Lettered] using lettered
        have least := ih inner (by simpa using long)
        simp only [List.replicate_succ, List.cons_append, rankOf, Fin.val_zero]
        omega

theorem rank_advance_le {odometer later : Odometer} (shows : later.Shows) (after : odometer.rank < later.rank) :
    odometer.advance.rank ≤ later.rank := by
  unfold advance
  split
  next next stepped =>
    have more := rankOf_increment stepped
    simp only [rank] at after ⊢
    omega
  next full =>
    have longer : odometer.places.length < later.places.length :=
      Nat.lt_of_not_le fun shorter => Nat.not_le_of_lt after (rankOf_le_of_full full shorter)
    rcases Nat.lt_or_ge (odometer.places.length + 1) later.places.length with far | near
    · exact Nat.le_of_lt (rankOf_lt_of_longer (by simpa using far))
    · exact rankOf_first_le shows.2 (Nat.le_antisymm near longer)

theorem eq_of_rank {first second : Odometer} (same : first.rank = second.rank) : first = second := by
  obtain ⟨places⟩ := first
  obtain ⟨others⟩ := second
  exact congrArg Odometer.mk (rankOf_injective same)

end Odometer
end LuaMinifier
