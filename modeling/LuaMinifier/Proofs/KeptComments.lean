import LuaMinifier.Pragma
import LuaMinifier.Proofs.RoundTrip

/-!
Comments that are kept in front of a text. The text of a comment on a line of its own is a comment again, the same one
up to a carriage return, so that comments in front of code change nothing about its tokens.
-/

namespace LuaMinifier

open Lexeme hiding Kind
open Token

/-- What is read of a comment when a line break stands behind it. One that reaches to the end of its line loses a
carriage return there; a bracketed one keeps all of its text. -/
def Comment.reread (comment : Comment) : Comment :=
  if comment.raw = "--" ++ comment.value then
    ⟨String.ofList (dropReturn comment.raw.toList), String.ofList (dropReturn comment.value.toList), comment.position⟩
  else comment

/-- The text of a comment is read as that comment when a line break stands behind it. -/
def Comment.Closed (comment : Comment) : Prop :=
  ∃ body, comment.raw.toList = '-' :: '-' :: body ∧ ∀ more,
    readComment (body ++ '\n' :: more) = .ok ⟨.comment comment.reread.raw comment.reread.value, 1 + body.length⟩

namespace Lexeme

theorem openingLevel_line {line more rest : List Char} {level : Nat}
    (opened : openingLevel (line ++ '\n' :: more) = some level) : openingLevel (line ++ rest) = some level := by
  rw [openingLevel_eq_some] at opened ⊢
  obtain ⟨inner, same⟩ := opened
  rcases List.append_eq_append_iff.mp same with ⟨signs, front, back⟩ | ⟨behind, rfl, back⟩
  · cases signs with
    | nil => simp at back
    | cons sign signs =>
        obtain ⟨rfl, _⟩ := List.cons.inj back
        have member : '\n' ∈ List.replicate level '=' := by simp [front]
        exact absurd (List.eq_of_mem_replicate member) (by decide)
  · cases behind with
    | nil => simp at back
    | cons bracket behind =>
        obtain ⟨rfl, _⟩ := List.cons.inj back
        exact ⟨behind ++ rest, by simp⟩

theorem readComment_line {line rest : List Char} (single : '\n' ∉ line)
    (plain : ∀ inner, line = '[' :: inner → openingLevel (inner ++ rest) = none) (more : List Char) :
    readComment (line ++ '\n' :: more) = .ok ⟨.comment (String.ofList ('-' :: '-' :: dropReturn line))
      (String.ofList (dropReturn line)), 1 + line.length⟩ := by
  have whole : (line ++ '\n' :: more).takeWhile (· ≠ '\n') = line := by
    rw [List.takeWhile_append_of_pos fun character member => by
      simpa using ne_of_mem_of_not_mem member single]
    simp
  have read : readComment (line ++ '\n' :: more) = readComment.readLine (line ++ '\n' :: more) := by
    unfold readComment
    split
    next behind same =>
      cases line with
      | nil => simp at same
      | cons first inner =>
          obtain ⟨rfl, rfl⟩ := List.cons.inj same
          have closed : openingLevel (inner ++ '\n' :: more) = none := by
            rw [Option.eq_none_iff_forall_ne_some]
            intro level opened
            have closed := plain inner rfl
            rw [openingLevel_line opened] at closed
            cases closed
          simp [closed]
    next => rfl
  rw [read, readComment.readLine, whole]

theorem dropReturn_cons {first : Char} (other : first ≠ '\r') (line : List Char) :
    dropReturn (first :: line) = first :: dropReturn line := by
  cases line with
  | nil => simp [dropReturn, other]
  | cons second rest =>
      simp only [dropReturn, List.getLast?_cons_cons, List.dropLast_cons_cons]
      split <;> rfl

theorem reread_line (line : List Char) (position : Position) :
    Comment.reread ⟨String.ofList ('-' :: '-' :: line), String.ofList line, position⟩ =
      ⟨String.ofList ('-' :: '-' :: dropReturn line), String.ofList (dropReturn line), position⟩ := by
  have whole : String.ofList ('-' :: '-' :: line) = "--" ++ String.ofList line := by
    rw [← String.toList_inj]
    simp
  have signs : dropReturn ('-' :: '-' :: line) = '-' :: '-' :: dropReturn line := by
    rw [dropReturn_cons (by decide), dropReturn_cons (by decide)]
  simp only [Comment.reread, if_pos whole, String.toList_ofList, signs]

theorem reread_of_length_lt {comment : Comment} (long : comment.value.length + 2 < comment.raw.length) :
    comment.reread = comment := by
  rw [Comment.reread, if_neg]
  intro same
  rw [same, String.length_append] at long
  have signs : "--".length = 2 := by decide
  omega

theorem dropReturn_prefix (line : List Char) : dropReturn line <+: line := by
  unfold dropReturn
  split
  · exact List.dropLast_prefix line
  · exact List.prefix_refl line

theorem closed_line {body : List Char} (plain : ∀ inner, body = '[' :: inner → openingLevel inner = none)
    (position : Position) :
    Comment.Closed ⟨String.ofList ('-' :: '-' :: dropReturn (body.takeWhile (· ≠ '\n'))),
      String.ofList (dropReturn (body.takeWhile (· ≠ '\n'))), position⟩ := by
  have first := dropReturn_prefix (body.takeWhile (· ≠ '\n'))
  obtain ⟨rest, same⟩ := first.trans (List.takeWhile_prefix _)
  have single : '\n' ∉ dropReturn (body.takeWhile (· ≠ '\n')) := fun member => by
    simpa using List.all_eq_true.mp List.all_takeWhile '\n' (first.subset member)
  have unopened (inner : List Char) (split : dropReturn (body.takeWhile (· ≠ '\n')) = '[' :: inner) :
      openingLevel (inner ++ rest) = none :=
    plain _ (by rw [← same, split, List.cons_append])
  refine ⟨_, String.toList_ofList, ?_⟩
  rw [reread_line]
  exact readComment_line single unopened

theorem closed_bracketed {inner : List Char} {level length : Nat} (closed : longBodyLength level inner 0 = some length)
    (position : Position) :
    Comment.Closed ⟨textOf '-' ('-' :: '[' :: (List.replicate level '=' ++ '[' :: inner))
      (1 + (length + 2 * (level + 2))), String.ofList (inner.take length), position⟩ := by
  obtain ⟨whole, behind, same, count, again⟩ := longBracket_local closed
  -- The text inside the brackets ends before the whole does, so that it is the same whatever stands behind.
  have inside (more : List Char) : ((whole ++ more).drop (level + 1)).take length = inner.take length := by
    have opened : (List.replicate level '=' ++ '[' :: inner).drop (level + 1) = inner := by simp [List.drop_append]
    rw [← opened, same, List.drop_append_of_le_length (by omega), List.drop_append_of_le_length (by omega),
      List.take_append_of_le_length (by rw [List.length_drop]; omega),
      List.take_append_of_le_length (by rw [List.length_drop]; omega)]
  have first (more : List Char) : textOf '-' ('-' :: '[' :: (whole ++ more)) (1 + (length + 2 * (level + 2))) =
      String.ofList ('-' :: '-' :: '[' :: whole) := by
    rw [← count]
    simp [textOf, Nat.add_comm 1]
  rw [same, first]
  refine ⟨'[' :: whole, String.toList_ofList, fun more => ?_⟩
  rw [reread_of_length_lt]
  · simp only [List.cons_append, readComment, (again _).1, (again _).2, inside, first, List.length_cons]
    rw [← count]
  · simp only [String.length_ofList, List.length_cons, List.length_take]
    omega

theorem closed_of_readComment {body : List Char} {raw value : String} {tail : Nat}
    (read : readComment body = .ok ⟨.comment raw value, tail⟩) (position : Position) :
    Comment.Closed ⟨raw, value, position⟩ := by
  unfold readComment readComment.readLine at read
  split at read
  next rest =>
    split at read
    next level opened =>
      obtain ⟨inner, rfl⟩ := (openingLevel_eq_some _ _).mp opened
      have behind : (List.replicate level '=' ++ '[' :: inner).drop (level + 1) = inner := by
        simp [List.drop_append]
      rw [behind] at read
      dsimp only at read
      split at read
      next length closed =>
        cases read
        exact closed_bracketed closed position
      next => cases read
    next unopened =>
      cases read
      exact closed_line (fun inner same => by cases same; exact unopened) position
  next other =>
    cases read
    exact closed_line (fun inner same => absurd same (other inner)) position

theorem closed_of_read {first : Char} {rest : List Char} {raw value : String} {tail : Nat}
    (read : Lexeme.read first rest = .ok ⟨.comment raw value, tail⟩) (position : Position) :
    Comment.Closed ⟨raw, value, position⟩ := by
  unfold Lexeme.read at read
  split at read
  next => cases read
  next =>
    split at read
    next => exact closed_of_readComment read position
    next =>
      unfold readQuoted readBracket readNumeral readWord readSymbol at read
      grind

end Lexeme

theorem Lexed.closed_of_ofText {position : Position} {text : List Char} {lexed : Lexed}
    (read : Lexed.ofText position text = .ok lexed) : ∀ comment ∈ lexed.comments, comment.Closed := by
  fun_induction Lexed.ofText position text generalizing lexed with
  | case1 =>
      cases read
      simp
  | case2 => simp at read
  | case3 => simp at read
  | case4 position first rest lexeme found behind cut ih =>
      cases read
      cases lexeme with
      | mk kind tail =>
          cases kind with
          | blank => exact ih cut
          | comment raw value =>
              simp only [Lexed.cons, List.forall_mem_cons]
              exact ⟨closed_of_read found position, ih cut⟩
          | token kind =>
              simp only [Lexed.cons]
              exact ih cut

theorem Lexed.ofText_break {text : List Char} (visible : ∀ first, text.head? = some first → isBlank first = false)
    (position : Position) : Lexed.ofText position ('\n' :: text) = Lexed.ofText (position.after ['\n']) text := by
  have single : Lexeme.read '\n' text = .ok ⟨.blank, 0⟩ := by
    have blank : isBlank '\n' = true := by decide
    cases text with
    | nil => rfl
    | cons first rest => simp [Lexeme.read, blank, countWhile, visible first rfl]
  rw [Lexed.ofText, single]
  simp only [List.take_zero, List.drop_zero]
  cases Lexed.ofText (position.after ['\n']) text <;> rfl

/-- A comment on a line of its own adds nothing but itself to what is read of the text behind it. -/
theorem Comment.Closed.ofText {comment : Comment} (closed : comment.Closed) {text : List Char}
    (visible : ∀ first, text.head? = some first → isBlank first = false) {position : Position} {lexed : Lexed}
    (read : Lexed.ofText (position.after (comment.raw.toList ++ ['\n'])) text = .ok lexed) :
    Lexed.ofText position (comment.raw.toList ++ '\n' :: text) =
      .ok (lexed.cons (.comment comment.reread.raw comment.reread.value) position) := by
  obtain ⟨body, raw, again⟩ := closed
  rw [raw, Position.after_append, ← Lexed.ofText_break visible] at read
  have whole : Lexeme.read '-' ('-' :: (body ++ '\n' :: text)) = readComment (body ++ '\n' :: text) := rfl
  rw [raw, List.cons_append, List.cons_append, Lexed.ofText, whole, again text]
  simp only [Nat.add_comm 1, List.take_succ_cons, List.take_left, List.drop_succ_cons, List.drop_left, read]

/-- The texts of a comment, wherever it stands. -/
def Comment.texts (comment : Comment) : String × String := (comment.raw, comment.value)

/-- A text is cut into tokens of these kinds and comments with these texts wherever it stands; it begins neither with a
blank nor with a line for an interpreter. -/
structure Cut (kinds : List Kind) (comments : List (String × String)) (text : List Char) : Prop where
  read : ∀ position, ∃ lexed, Lexed.ofText position text = .ok lexed ∧ lexed.tokens.map (·.kind) = kinds ∧
    lexed.comments.map Comment.texts = comments
  visible : ∀ first, text.head? = some first → isBlank first = false
  plain : text.head? ≠ some '#'

namespace Cut

variable {kinds : List Kind} {comments : List (String × String)} {text : List Char}

theorem ofSpaced (spaced : Spaced kinds text) (plain : text.head? ≠ some '#') : Cut kinds [] text := by
  refine ⟨fun position => ?_, fun first head => ?_, plain⟩
  · obtain ⟨lexed, read, same, silent⟩ := spaced.ofText position
    exact ⟨lexed, read, same, by rw [silent, List.map_nil]⟩
  · cases kinds with
    | nil => simp [spaced.text_eq_nil.mpr rfl] at head
    | cons kind rest =>
        rw [spaced.head] at head
        obtain ⟨behind, same⟩ := List.head?_eq_some_iff.mp head
        exact Spaced.head_not_blank (spaced.written kind (by simp)) same

theorem tokenize (cut : Cut kinds comments text) :
    ∃ lexed, LuaMinifier.tokenize (String.ofList text) = .ok lexed ∧ lexed.tokens.map (·.kind) = kinds ∧
      lexed.comments.map Comment.texts = comments := by
  obtain ⟨lexed, read, same⟩ := cut.read .start
  exact ⟨lexed, by simpa [LuaMinifier.tokenize, interpreterLine, cut.plain] using read, same⟩

theorem comment (cut : Cut kinds comments text) {comment : Comment} (closed : comment.Closed) :
    Cut kinds (comment.reread.texts :: comments) (comment.raw.toList ++ '\n' :: text) := by
  refine ⟨fun position => ?_, ?_, ?_⟩
  · obtain ⟨lexed, read, same, others⟩ := cut.read (position.after (comment.raw.toList ++ ['\n']))
    refine ⟨_, closed.ofText cut.visible read, same, ?_⟩
    rw [Lexed.cons, List.map_cons, others]
    rfl
  · rintro first head
    obtain ⟨body, raw, -⟩ := closed
    obtain rfl : '-' = first := by simpa [raw] using head
    decide
  · obtain ⟨body, raw, -⟩ := closed
    simp [raw]

theorem withPragmas {kept : List Comment} (closed : ∀ comment ∈ kept, comment.Closed) (module : String)
    {code : Fragment} (cut : Cut kinds comments code.chars) :
    Cut kinds (kept.map (·.reread.texts) ++ comments) (code.withPragmas module kept).chars := by
  induction kept with
  | nil => exact cut
  | cons comment rest ih =>
      rw [List.forall_mem_cons] at closed
      have whole := (ih closed.2).comment closed.1
      simpa [Fragment.withPragmas, Comment.line, Piece.chars] using whole

end Cut

theorem Block.cut_print (module : String) {body : Block Spelling} (formed : body.Formed Kind.Written Spelling.Written) :
    Cut (body.reread.kinds Spelling.text true) [] (body.print module).chars := by
  have chars : (body.print module).chars = (body.printOnto module .empty).chars := by simp [Block.print, Print.node]
  rw [chars]
  exact .ofSpaced (body.printed module formed).spaced (body.head_printed module formed)

theorem pragmas_subset (marker : String) (comments : List Comment) : pragmas marker comments ⊆ comments := by
  unfold pragmas
  split
  · simp
  · exact List.filter_sublist.subset

end LuaMinifier
