import LuaMinifier.Position
import Mathlib.Data.List.Induction

/-!
Places in a text, counted in its bytes: the line of a place is the number of line feeds in front of it, its column the
number of bytes behind the last of them. Moving on character by character comes to the same place, and every character
leads to a later one.
-/

namespace LuaMinifier

def utf8 (text : List Char) : List UInt8 := text.flatMap String.utf8EncodeChar

def lineFeed : UInt8 := 10

def lineFeeds (bytes : List UInt8) : Nat := bytes.count lineFeed

def bytesSinceLineFeed (bytes : List UInt8) : Nat := (bytes.reverse.takeWhile (· ≠ lineFeed)).length

@[simp] theorem utf8_nil : utf8 [] = [] := rfl

@[simp] theorem utf8_cons (character : Char) (rest : List Char) :
    utf8 (character :: rest) = String.utf8EncodeChar character ++ utf8 rest := rfl

@[simp] theorem utf8_append (first second : List Char) : utf8 (first ++ second) = utf8 first ++ utf8 second :=
  List.flatMap_append

theorem le_of_mem_utf8EncodeChar {character : Char} {byte : UInt8} (large : ¬character.val.toNat ≤ 127)
    (inside : byte ∈ String.utf8EncodeChar character) : 128 ≤ byte.toNat := by
  simp only [String.utf8EncodeChar, large, if_false] at inside
  split at inside
  · simp only [List.mem_cons, List.not_mem_nil, or_false] at inside
    rcases inside with rfl | rfl <;> rw [UInt8.toNat_ofNat'] <;> omega
  · split at inside
    · simp only [List.mem_cons, List.not_mem_nil, or_false] at inside
      rcases inside with rfl | rfl | rfl <;> rw [UInt8.toNat_ofNat'] <;> omega
    · simp only [List.mem_cons, List.not_mem_nil, or_false] at inside
      rcases inside with rfl | rfl | rfl | rfl <;> rw [UInt8.toNat_ofNat'] <;> omega

theorem eq_lineFeed_of_mem {character : Char} (inside : lineFeed ∈ String.utf8EncodeChar character) :
    character = '\n' := by
  by_cases small : character.val.toNat ≤ 127
  · simp only [String.utf8EncodeChar, small, if_true] at inside
    have same : lineFeed.toNat = _ := congrArg UInt8.toNat (List.mem_singleton.mp inside)
    rw [UInt8.toNat_ofNat', Nat.mod_eq_of_lt (by omega)] at same
    exact Char.ext (UInt32.toNat_inj.mp same.symm)
  · exact absurd (le_of_mem_utf8EncodeChar small inside) (by decide)

theorem lineFeeds_append (first second : List UInt8) :
    lineFeeds (first ++ second) = lineFeeds first + lineFeeds second := List.count_append

theorem lineFeeds_of_not_mem {bytes : List UInt8} (missing : lineFeed ∉ bytes) : lineFeeds bytes = 0 :=
  List.count_eq_zero_of_not_mem missing

theorem bytesSinceLineFeed_append {bytes : List UInt8} (missing : lineFeed ∉ bytes) (front : List UInt8) :
    bytesSinceLineFeed (front ++ bytes) = bytesSinceLineFeed front + bytes.length := by
  have all : ∀ byte ∈ bytes.reverse, decide (byte ≠ lineFeed) = true := by
    intro byte member
    rw [List.mem_reverse] at member
    exact decide_eq_true fun same => missing (same ▸ member)
  rw [bytesSinceLineFeed, List.reverse_append, List.takeWhile_append_of_pos all, List.length_append,
    List.length_reverse, bytesSinceLineFeed, Nat.add_comm]

theorem bytesSinceLineFeed_lineFeed (front : List UInt8) : bytesSinceLineFeed (front ++ [lineFeed]) = 0 := by
  simp [bytesSinceLineFeed]

namespace Position

/-- Behind a text that starts a line, the line counts its line feeds and the column the bytes behind the last one. -/
theorem after_lineStart (line : Nat) (text : List Char) :
    (⟨line, 0⟩ : Position).after text = ⟨line + lineFeeds (utf8 text), bytesSinceLineFeed (utf8 text)⟩ := by
  induction text using List.reverseRecOn with
  | nil => rfl
  | append_singleton front last ih =>
      rw [after_append, ih, after_cons, after_nil, step, utf8_append]
      split
      next feed =>
        subst feed
        rw [show utf8 ['\n'] = [lineFeed] by decide, lineFeeds_append, bytesSinceLineFeed_lineFeed]
        rfl
      next other =>
        have missing : lineFeed ∉ utf8 [last] := by
          rw [utf8_cons, utf8_nil, List.append_nil]
          exact fun inside => other (eq_lineFeed_of_mem inside)
        rw [lineFeeds_append, lineFeeds_of_not_mem missing, bytesSinceLineFeed_append missing]
        simp

def Before (first second : Position) : Prop :=
  first.line < second.line ∨ first.line = second.line ∧ first.column < second.column

theorem Before.trans {first second third : Position} (front : first.Before second) (back : second.Before third) :
    first.Before third := by
  unfold Before at *
  omega

theorem Before.ne {first second : Position} (before : first.Before second) : first ≠ second := by
  rintro rfl
  unfold Before at before
  omega

theorem Before.line_le {first second : Position} (before : first.Before second) : first.line ≤ second.line := by
  unfold Before at before
  omega

theorem before_step (position : Position) (character : Char) : position.Before (position.step character) := by
  have size := character.utf8Size_pos
  unfold Before step
  split
  · exact .inl (Nat.lt_succ_self _)
  · exact .inr ⟨rfl, Nat.lt_add_of_pos_right size⟩

def AtOrBefore (first second : Position) : Prop := second = first ∨ first.Before second

theorem Before.trans_atOrBefore {first second third : Position} (front : first.Before second)
    (back : second.AtOrBefore third) : first.Before third := by
  obtain rfl | before := back
  · exact front
  · exact front.trans before

theorem AtOrBefore.after {first second : Position} (ahead : first.AtOrBefore second) (text : List Char) :
    first.AtOrBefore (second.after text) := by
  induction text generalizing second with
  | nil => exact ahead
  | cons character rest ih =>
      refine ih (.inr ?_)
      obtain rfl | before := ahead
      · exact before_step second character
      · exact before.trans (before_step second character)

end Position
end LuaMinifier
