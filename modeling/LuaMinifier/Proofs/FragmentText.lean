import LuaMinifier.Fragment.Finalize
import LuaMinifier.Proofs.Spacing

/-!
Fragments seen as the characters of their leaves. What a fragment says about its ends agrees with these characters,
and writing to a fragment is writing to them. Main statement: this holds of every fragment and the text it is turned
into, however its leaves are nested.
-/

namespace LuaMinifier

/-- The characters of a part, from left to right. -/
def Piece.chars : Piece → List Char
  | .empty => []
  | .text written => written.toList
  | .node _ _ body => body.chars
  | .append first second => first.chars ++ second.chars

def Fragment.chars (fragment : Fragment) : List Char := fragment.body.chars

namespace Tail

theorem append_ofChars (first second : List Char) :
    (ofChars first).append (ofChars second) = ofChars (first ++ second) := by
  rcases List.eq_nil_or_concat second with rfl | ⟨front, last, rfl⟩
  · simp [append, ofChars]
  · rw [List.concat_eq_append, ← List.append_assoc, ofChars_concat, ofChars_concat]
    rcases List.eq_nil_or_concat front with rfl | ⟨before, beforeLast, rfl⟩
    · rcases List.eq_nil_or_concat first with rfl | ⟨front, final, rfl⟩
      · simp [append, ofChars]
      · simp [append, ofChars_concat]
    · simp [append, ← List.append_assoc]

end Tail

namespace Piece

theorem first_eq (piece : Piece) : piece.first = piece.chars.head? := by
  induction piece with
  | empty => rfl
  | text written => rfl
  | node origin name body ih => exact ih
  | append start rest ihStart ihRest =>
      simp only [first, chars, ihStart, ihRest, List.head?_append]
      cases start.chars.head? <;> rfl

theorem tail_eq (piece : Piece) : piece.tail = .ofChars piece.chars := by
  induction piece with
  | empty => rfl
  | text written => rfl
  | node origin name body ih => exact ih
  | append start rest ihStart ihRest =>
      simp only [tail, chars, ihStart, ihRest, ← Tail.append_ofChars]
      split
      next last beforeLast same => rw [same]; rfl
      next => rfl

theorem chars_behind (first second : Piece) : (first.behind second).chars = first.chars ++ second.chars := by
  cases first <;> rfl

theorem join_events (piece : Piece) (rest : List Event) :
    String.join ((piece.events rest).map Event.written) =
      String.ofList piece.chars ++ String.join (rest.map Event.written) := by
  induction piece generalizing rest with
  | empty => simp [events, chars]
  | text written => simp [events, chars, Event.written, String.join_cons]
  | node origin name body ih =>
      cases origin <;> simp [events, chars, Event.written, String.join_cons, ih]
  | append start tail ihStart ihTail => simp [events, chars, ihStart, ihTail, String.append_assoc]

theorem toText_eq (piece : Piece) : piece.toText = String.ofList piece.chars := by
  simp [toText, join_events]

end Piece

namespace Fragment

theorem first_eq (fragment : Fragment) : fragment.first = fragment.chars.head? := fragment.body.first_eq

theorem tail_eq (fragment : Fragment) : fragment.tail = .ofChars fragment.chars := fragment.body.tail_eq

theorem toText_eq (fragment : Fragment) : fragment.toText = String.ofList fragment.chars :=
  fragment.toPiece.toText_eq

@[simp] theorem chars_empty : Fragment.empty.chars = [] := rfl

@[simp] theorem chars_ofOrigin (origin : Origin) : (ofOrigin origin).chars = [] := rfl

@[simp] theorem chars_toPiece (fragment : Fragment) : fragment.toPiece.chars = fragment.chars := rfl

@[simp] theorem chars_withName (fragment : Fragment) (name : String) :
    (fragment.withName name).chars = fragment.chars := rfl

@[simp] theorem chars_append (fragment : Fragment) (piece : Piece) :
    (fragment.append piece).chars = fragment.chars ++ piece.chars :=
  Piece.chars_behind ..

@[simp] theorem chars_prepend (fragment : Fragment) (piece : Piece) :
    (fragment.prepend piece).chars = piece.chars ++ fragment.chars :=
  Piece.chars_behind ..

@[simp] theorem chars_join (fragment : Fragment) (piece : Piece) :
    (fragment.join piece).chars = joinChars fragment.chars piece.chars := by
  rw [join, joinChars, tail_eq, Piece.first_eq]
  split
  · simp [Piece.chars]
  · simp

end Fragment
end LuaMinifier
